import Eo9.Gfx.Mem
import Eo9.Gfx.Simplefb
import Eo9.Gfx.Virtio

/-!
# Three framebuffers

The framebuffer in memory, the one of a virtio display and the one of the board, against one grid of
pixels.
-/

namespace Eo9.Gfx

open Eo9.Library Wrapping

/-- A picture without light. -/
def black (width height : UInt32) : Grid := ⟨width.toNat, height.toNat, fun _ _ _ => 0⟩

/-- Whatever is called, each of the three does exactly what the grid does, if and only if every size
that is presented, and the size that the display reports, is a 64-bit word. -/
theorem framebuffers_faithful_iff {memWidth memHeight displayWidth displayHeight enabled : UInt32}
    {fb : Mem.Framebuffer} {driver : Virtio.Driver} {surface : List UInt8}
    {memWrapped displayWrapped : Bool}
    (hmem : Mem.configure memWidth memHeight = .done (.ok fb) memWrapped)
    (hdisplay : Virtio.scanOut displayWidth displayHeight enabled = .done (.ok driver) displayWrapped)
    (hsurface : surface.length = Simplefb.FB_BYTES) (calls : List Call) :
    ((memWrapped = false ∧ Faithful Mem.step Mem.Shown fb (black memWidth memHeight) calls) ∧
      (displayWrapped = false ∧
        Faithful Virtio.step Virtio.Shown driver (black displayWidth displayHeight) calls) ∧
      Faithful Simplefb.step Simplefb.Shown surface (Simplefb.gridOf surface) calls) ↔
    Virtio.geometryBytes displayWidth displayHeight < 2 ^ 64 ∧ ∀ c ∈ calls, c.Fits := by
  obtain ⟨r, hr⟩ := Mem.exists_runs_configure memWidth memHeight
  obtain ⟨rfl, rfl⟩ := done.inj (hr.symm.trans hmem)
  have hfb := Mem.faithful_iff (Mem.configure_shown hr) calls
  have hboard := Simplefb.faithful (Simplefb.shown_gridOf hsurface) calls
  constructor
  · rintro ⟨⟨-, hcalls⟩, ⟨rfl, -⟩, -⟩
    exact ⟨(Virtio.scanOut_shown hdisplay).1, hfb.mp hcalls⟩
  · rintro ⟨hgeometry, hcalls⟩
    obtain ⟨r, hr⟩ := Virtio.exists_runs_scanOut hgeometry enabled
    obtain ⟨rfl, rfl⟩ := done.inj (hr.symm.trans hdisplay)
    have hdriver := Virtio.faithful_iff (Virtio.scanOut_shown hr).2 calls
    exact ⟨⟨rfl, hfb.mpr hcalls⟩, ⟨rfl, hdriver.mpr hcalls⟩, hboard⟩

theorem framebuffers_faithful_sample :
    Faithful Mem.step Mem.Shown ⟨1, 1, [0, 0, 0, 0]⟩ (black 1 1) [.clear ⟨0, 0, 1, 1⟩ 0xff] := by
  have hiff := @framebuffers_faithful_iff 1 1 1 1 1 ⟨1, 1, [0, 0, 0, 0]⟩ ⟨1, 1, [0, 0, 0, 0]⟩
    (List.replicate Simplefb.FB_BYTES 0) false false rfl rfl List.length_replicate
    [.clear ⟨0, 0, 1, 1⟩ 0xff]
  exact (hiff.mpr ⟨by decide, fun _ hc => List.mem_singleton.mp hc ▸ trivial⟩).1.2

/-- Outside of a single pixel, a rectangle with the size of 2 ^ 64 bytes is presented. -/
theorem present_wraps : ¬Faithful Mem.step Mem.Shown ⟨1, 1, [0, 0, 0, 0]⟩ (black 1 1)
    [.present ⟨0, 0, 0x80000000, 0x80000000⟩ []] := by
  have hconfigured : Runs (Mem.configure 1 1) (.ok ⟨1, 1, [0, 0, 0, 0]⟩) := rfl
  intro h
  have hfits := (Mem.faithful_iff (Mem.configure_shown hconfigured) _).mp h
  exact absurd (hfits _ (List.mem_singleton_self _)) (Nat.lt_irrefl _)

end Eo9.Gfx
