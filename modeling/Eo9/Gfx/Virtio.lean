import Eo9.Gfx.Grid
import Eo9.Library.Splice

/-!
# The framebuffer of a virtio display

`gpu-virtio/src/lib.rs`, on a device that answers every command with success. The pixels lie in
a DMA buffer, whose offsets are 64-bit words; those of the guest's own lists are 32-bit words.
-/

namespace Eo9.Gfx.Virtio

open Eo9.Library

def MAX_FRAMEBUFFER_BYTES : ℕ := 4 * 1024 * 1024

structure Driver where
  width : UInt32
  height : UInt32
  framebuffer : List UInt8

/-- The kernel's DMA allocation. -/
def allocDma (len : ℕ) : Except String (List UInt8) :=
  if len = 0 ∨ MAX_FRAMEBUFFER_BYTES < len then
    .error "gpu.virtio: alloc-dma (framebuffer): PciError::Exhausted"
  else .ok (List.replicate len 0)

/-- The geometry that the device reports, and the backing for it. -/
def scanOut (width height enabled : UInt32) : Wrapping (Except String Driver) :=
  if width = 0 ∨ height = 0 then
    pure (.error s!"gpu.virtio: the device reports no usable scanout-0 geometry ({width}x{height}, enabled {enabled})")
  else do
    let area ← .mul 64 width.toNat height.toNat
    let framebufferBytes ← .mul 64 area BYTES_PER_PIXEL
    if MAX_FRAMEBUFFER_BYTES < framebufferBytes then
      pure (.error s!"gpu.virtio: the {width}x{height} scanout needs {framebufferBytes} bytes of backing, over the v1 driver's single-allocation limit of {MAX_FRAMEBUFFER_BYTES} (multi-entry backing is the recorded follow-up)")
    else pure ((allocDma framebufferBytes).map fun framebuffer => ⟨width, height, framebuffer⟩)

def dmaWrite (buffer : List UInt8) (offset : ℕ) (bytes : List UInt8) : Wrapping (List UInt8) :=
  .splice buffer offset (offset + bytes.length) bytes

def dmaRead (buffer : List UInt8) (offset len : ℕ) : Wrapping (List UInt8) :=
  .slice buffer offset (offset + len)

/-- A 64-bit word as a size of the guest. -/
def asUsize (n : ℕ) : ℕ := n % 2 ^ 32

/-- The stride and the offset of a rectangle's first pixel. -/
def origin (driver : Driver) (rect : Rect) : Wrapping (ℕ × ℕ) := do
  let stride ← .mul 64 driver.width.toNat BYTES_PER_PIXEL
  let above ← .mul 64 rect.y.toNat stride
  let left ← .mul 64 rect.x.toNat BYTES_PER_PIXEL
  let start ← .add 64 above left
  pure (stride, start)

/-- The damage becomes visible; both commands succeed. -/
def flushRect (driver : Driver) (rect : Rect) : Wrapping Unit :=
  if rect.width = 0 ∨ rect.height = 0 then pure ()
  else do
    let _ ← origin driver rect
    pure ()

def presentRow (stride rowBytes start : ℕ) (bytes : List UInt8) (row : ℕ) (framebuffer : List UInt8) :
    Wrapping (List UInt8) := do
  let rowStart ← .mul 64 row rowBytes
  let rowStop ← .add 32 (asUsize rowStart) (asUsize rowBytes)
  let line ← .slice bytes (asUsize rowStart) rowStop
  let offset ← rowAt 64 start stride row
  dmaWrite framebuffer offset line

/-- The bytes that are presented. -/
def copyOut (src : List UInt8) (needed : ℕ) : Wrapping (List UInt8) :=
  if needed ≤ src.length ∧ 0 < needed then .slice src 0 needed else pure []

/-- The buffer is copied out before the rectangle is checked. -/
def present (driver : Driver) (dst : Rect) (src : List UInt8) : Wrapping (Driver × Reply) := do
  let area ← .mul 64 dst.width.toNat dst.height.toNat
  let needed ← .mul 64 area BYTES_PER_PIXEL
  let bytes ← copyOut src needed
  if endsFit dst driver.width driver.height then do
    match ← checkBuffer dst src.length with
    | .error error => pure (driver, ⟨src, .error error⟩)
    | .ok _ => do
        let (stride, start) ← origin driver dst
        let rowBytes ← .mul 64 dst.width.toNat BYTES_PER_PIXEL
        let framebuffer ← Wrapping.rows dst.height.toNat (presentRow stride rowBytes start bytes)
          driver.framebuffer
        flushRect driver dst
        pure ({ driver with framebuffer }, ⟨src, .ok ()⟩)
  else pure (driver, ⟨src, .error .outOfBounds⟩)

def readRow (framebuffer : List UInt8) (stride rowBytes start row : ℕ) (out : List UInt8) :
    Wrapping (List UInt8) := do
  let offset ← rowAt 64 start stride row
  let line ← dmaRead framebuffer offset rowBytes
  pure (out ++ line)

def read (driver : Driver) (src : Rect) (dst : List UInt8) : Wrapping (Driver × Reply) :=
  if endsFit src driver.width driver.height then do
    match ← checkBuffer src dst.length with
    | .error error => pure (driver, ⟨dst, .error error⟩)
    | .ok _ => do
        let (stride, start) ← origin driver src
        let rowBytes ← .mul 64 src.width.toNat BYTES_PER_PIXEL
        let _capacity ← .mul 64 rowBytes src.height.toNat
        let bytes ← Wrapping.rows src.height.toNat
          (readRow driver.framebuffer stride rowBytes start) []
        let dst ← copyIn dst bytes
        pure (driver, ⟨dst, .ok ()⟩)
  else pure (driver, ⟨dst, .error .outOfBounds⟩)

def clearRow (line : List UInt8) (stride start row : ℕ) (framebuffer : List UInt8) :
    Wrapping (List UInt8) := do
  let offset ← rowAt 64 start stride row
  dmaWrite framebuffer offset line

def clear (driver : Driver) (dst : Rect) (color : UInt32) : Wrapping (Driver × Reply) :=
  if endsFit dst driver.width driver.height then
    if dst.width = 0 ∨ dst.height = 0 then pure (driver, ⟨[], .ok ()⟩)
    else do
      let _capacity ← .mul 32 dst.width.toNat 4
      let (stride, start) ← origin driver dst
      let framebuffer ← Wrapping.rows dst.height.toNat
        (clearRow (List.replicate dst.width.toNat (toLeBytes color)).flatten stride start)
        driver.framebuffer
      flushRect driver dst
      pure ({ driver with framebuffer }, ⟨[], .ok ()⟩)
  else pure (driver, ⟨[], .error .outOfBounds⟩)

def step (driver : Driver) : Call → Wrapping (Driver × Reply)
  | .present dst src => present driver dst src
  | .read src dst => read driver src dst
  | .clear dst color => clear driver dst color

/-- A driver whose backing has the size of its geometry, and what it shows. -/
structure Shown (driver : Driver) (g : Grid) : Prop where
  width_eq : g.width = driver.width.toNat
  height_eq : g.height = driver.height.toNat
  height_pos : 0 < g.height
  length_le : driver.framebuffer.length ≤ MAX_FRAMEBUFFER_BYTES
  shows : Shows BYTES_PER_PIXEL driver.framebuffer g

section Calls

open Wrapping

variable {driver : Driver} {g : Grid} {rect : Rect}

theorem Shown.inside_iff (h : Shown driver g) :
    endsFit rect driver.width driver.height = true ↔ rect.Inside g.width g.height := by
  rw [endsFit_iff, h.width_eq, h.height_eq]

/-- Every offset into the backing is small. -/
theorem Shown.limit (h : Shown driver g) : g.height * (g.width * BYTES_PER_PIXEL) ≤ 2 ^ 22 ∧
    g.width * BYTES_PER_PIXEL ≤ 2 ^ 22 := by
  have hle := h.length_le
  rw [h.shows.length_eq] at hle
  exact ⟨hle, Nat.le_trans (Nat.le_mul_of_pos_left _ h.height_pos) hle⟩

theorem runs_origin (h : Shown driver g) (hin : rect.Inside g.width g.height) :
    Runs (origin driver rect) (g.width * BYTES_PER_PIXEL,
      rect.y.toNat * (g.width * BYTES_PER_PIXEL) + rect.x.toNat * BYTES_PER_PIXEL) := by
  obtain ⟨hsize, hstride⟩ := h.limit
  have hstart := hin.start_le (g.width * BYTES_PER_PIXEL) BYTES_PER_PIXEL
  rw [origin, ← h.width_eq]
  refine .bind (.mul ?_) (.bind (.mul ?_) (.bind (.mul ?_) (.bind (.add ?_) (.pure _))))
  all_goals omega

theorem runs_flushRect (h : Shown driver g) (hin : rect.Inside g.width g.height) :
    Runs (flushRect driver rect) () := by
  rw [flushRect]
  split
  · exact .pure _
  · exact (runs_origin h hin).bind (.pure _)

/-- A row of the rectangle lies in the backing. -/
theorem Shown.row_le (h : Shown driver g) (hin : rect.Inside g.width g.height) {row : ℕ}
    (hrow : row < rect.height.toNat) :
    rect.y.toNat * (g.width * BYTES_PER_PIXEL) + rect.x.toNat * BYTES_PER_PIXEL +
      row * (g.width * BYTES_PER_PIXEL) + rect.width.toNat * BYTES_PER_PIXEL ≤
        driver.framebuffer.length ∧ driver.framebuffer.length ≤ 2 ^ 22 := by
  rw [h.shows.length_eq]
  exact ⟨hin.row_le le_rfl hrow, h.limit.1⟩

/-- The driver with another picture in its backing. -/
theorem Shown.repaint (h : Shown driver g) {framebuffer : List UInt8} {new : ℕ → ℕ → ℕ → UInt8}
    (hshows : Shows BYTES_PER_PIXEL framebuffer (g.paint rect new)) :
    Shown { driver with framebuffer } (g.paint rect new) where
  width_eq := h.width_eq
  height_eq := h.height_eq
  height_pos := h.height_pos
  length_le := by
    have hle := h.length_le
    rw [h.shows.length_eq] at hle
    rw [hshows.length_eq]
    exact hle
  shows := hshows

theorem presentRow_runs (h : Shown driver g) (hin : rect.Inside g.width g.height)
    {src framebuffer : List UInt8} (hsrc : rect.needed ≤ src.length)
    (hframebuffer : framebuffer.length = driver.framebuffer.length) {row : ℕ}
    (hrow : row < rect.height.toNat) :
    Runs (presentRow (g.width * BYTES_PER_PIXEL) (rect.width.toNat * BYTES_PER_PIXEL)
      (rect.y.toNat * (g.width * BYTES_PER_PIXEL) + rect.x.toNat * BYTES_PER_PIXEL)
      (sub src 0 rect.needed) row framebuffer)
      (copyInto framebuffer (rect.y.toNat * (g.width * BYTES_PER_PIXEL) +
        rect.x.toNat * BYTES_PER_PIXEL + row * (g.width * BYTES_PER_PIXEL))
        (sub (sub src 0 rect.needed) (row * (rect.width.toNat * BYTES_PER_PIXEL))
          (rect.width.toNat * BYTES_PER_PIXEL))) := by
  obtain ⟨hfits, hle⟩ := h.row_le hin hrow
  have hline := Rect.line_le hrow BYTES_PER_PIXEL
  have hneeded := hin.needed_le
  rw [← h.shows.length_eq, rect.needed_eq] at hneeded
  have hbytes : (sub src 0 rect.needed).length = rect.needed := length_sub (by rwa [Nat.zero_add])
  have hlength := length_line hsrc hrow
  have hstart : asUsize (row * (rect.width.toNat * BYTES_PER_PIXEL)) =
      row * (rect.width.toNat * BYTES_PER_PIXEL) := Nat.mod_eq_of_lt (by omega)
  have hbytesRow : asUsize (rect.width.toNat * BYTES_PER_PIXEL) =
      rect.width.toNat * BYTES_PER_PIXEL := Nat.mod_eq_of_lt (by omega)
  rw [rect.needed_eq] at hbytes
  have hslice : Runs (.slice (sub src 0 rect.needed)
      (asUsize (row * (rect.width.toNat * BYTES_PER_PIXEL)))
      (asUsize (row * (rect.width.toNat * BYTES_PER_PIXEL)) +
        asUsize (rect.width.toNat * BYTES_PER_PIXEL)))
      (sub (sub src 0 rect.needed) (row * (rect.width.toNat * BYTES_PER_PIXEL))
        (rect.width.toNat * BYTES_PER_PIXEL)) := by
    rw [hstart, hbytesRow]
    exact .slice (by rw [rect.needed_eq]; omega)
  refine .bind (.mul (by omega)) (.bind (.add ?_) (hslice.bind (.bind (runs_rowAt (by omega)) ?_)))
  · rw [hstart, hbytesRow]
    omega
  · exact .splice (by rw [hlength, hframebuffer]; exact hfits) rfl

/-- The bytes that are presented, if there are enough of them. -/
theorem runs_copyOut {src : List UInt8} {needed : ℕ} :
    Runs (copyOut src needed) (if src.length < needed then [] else sub src 0 needed) := by
  rw [copyOut]
  by_cases hshort : src.length < needed
  · rw [if_neg (fun h => absurd h.1 (Nat.not_le_of_lt hshort)), if_pos hshort]
    exact .pure _
  · rw [if_neg hshort]
    have hlong : needed ≤ src.length := Nat.le_of_not_lt hshort
    by_cases hpos : 0 < needed
    · have hslice := @Runs.slice _ src 0 needed (by rwa [Nat.zero_add])
      rw [if_pos ⟨hlong, hpos⟩]
      rwa [Nat.zero_add] at hslice
    · rw [if_neg (fun h => hpos h.2), Nat.eq_zero_of_not_pos hpos]
      exact .pure _

theorem present_runs (h : Shown driver g) {src : List UInt8} (hfits : rect.needed < 2 ^ 64) :
    ∃ driver' reply, Runs (present driver rect src) (driver', reply) ∧
      Reply.Alike (.present rect src) reply (g.call (.present rect src)).2 ∧
      Shown driver' (g.call (.present rect src)).1 := by
  have harea : Runs (.mul 64 rect.width.toNat rect.height.toNat) rect.area := .mul (area_lt rect)
  have hneeded : Runs (.mul 64 rect.area BYTES_PER_PIXEL) rect.needed := .mul hfits
  by_cases hin : rect.Inside g.width g.height
  · by_cases hshort : src.length < rect.needed
    · rw [Grid.call_present_short hin hshort]
      refine ⟨driver, _, harea.bind (hneeded.bind (runs_copyOut.bind ?_)), .refl _ _, h⟩
      rw [if_pos (h.inside_iff.mpr hin)]
      exact .bind (runs_checkBuffer.mpr ⟨hfits, (if_pos hshort).symm⟩) (.pure _)
    · have hlong : rect.needed ≤ src.length := Nat.le_of_not_lt hshort
      obtain ⟨hsize, hstride⟩ := h.limit
      have hcolumns := hin.columns BYTES_PER_PIXEL
      have hheight := hin.2
      have hrows := @Runs.rows (List UInt8) rect.height.toNat _
        (blitRows driver.framebuffer _ (g.width * BYTES_PER_PIXEL) _) fun row hrow =>
          presentRow_runs h hin hlong (length_blitRows h.shows.length_eq
            (fun i hi => length_line hlong (Nat.lt_trans hi hrow)) hcolumns (by omega)) hrow
      have hblit := h.shows.blit (by decide) hin (fun j hj => length_line hlong hj)
        fun j hj i hi channel hchannel => getElem?_line hlong hj hi hchannel
      rw [Grid.call_present_inside hin hshort]
      refine ⟨_, _, harea.bind (hneeded.bind (runs_copyOut.bind ?_)), .refl _ _, h.repaint hblit⟩
      rw [if_pos (h.inside_iff.mpr hin), if_neg hshort]
      exact .bind (runs_checkBuffer.mpr ⟨hfits, (if_neg hshort).symm⟩) ((runs_origin h hin).bind
        (.bind (.mul (by omega)) (.bind hrows (.bind (runs_flushRect h hin) (.pure _)))))
  · rw [Grid.call_present_outside hin]
    refine ⟨driver, _, harea.bind (hneeded.bind (runs_copyOut.bind ?_)), .refl _ _, h⟩
    rw [if_neg (mt h.inside_iff.mp hin)]
    exact .pure _

theorem read_runs (h : Shown driver g) {dst : List UInt8} :
    ∃ driver' reply, Runs (read driver rect dst) (driver', reply) ∧
      Reply.Alike (.read rect dst) reply (g.call (.read rect dst)).2 ∧
      Shown driver' (g.call (.read rect dst)).1 := by
  rw [read]
  by_cases hin : rect.Inside g.width g.height
  · have hneeded := hin.needed_le
    obtain ⟨hsize, hstride⟩ := h.limit
    have hcolumns := hin.columns BYTES_PER_PIXEL
    have hfits : rect.needed < 2 ^ 64 := by omega
    rw [if_pos (h.inside_iff.mpr hin)]
    by_cases hshort : dst.length < rect.needed
    · rw [Grid.call_read_short hin hshort]
      exact ⟨driver, _, .bind (runs_checkBuffer.mpr ⟨hfits, (if_pos hshort).symm⟩) (.pure _),
        .refl _ _, h⟩
    · have hlength := length_gatherRows h.shows.length_eq hcolumns hin.2
      rw [← rect.needed_eq] at hlength
      have hrows := @Runs.rows (List UInt8) rect.height.toNat
        (readRow driver.framebuffer (g.width * BYTES_PER_PIXEL) (rect.width.toNat * BYTES_PER_PIXEL)
          (rect.y.toNat * (g.width * BYTES_PER_PIXEL) + rect.x.toNat * BYTES_PER_PIXEL))
        (gatherRows driver.framebuffer _ (g.width * BYTES_PER_PIXEL) _) fun row hrow => by
          obtain ⟨hrowFits, hle⟩ := h.row_le hin hrow
          exact .bind (runs_rowAt (by omega)) (.bind (.slice hrowFits) (.pure _))
      have hcopied := @runs_copyIn dst _ (hlength ▸ Nat.le_of_not_lt hshort)
      rw [hlength] at hcopied
      rw [Grid.call_read_inside hin hshort]
      refine ⟨driver, _, .bind (runs_checkBuffer.mpr ⟨hfits, (if_neg hshort).symm⟩)
        ((runs_origin h hin).bind (.bind (.mul (by omega)) (.bind (.mul ?_) (.bind hrows
          (hcopied.bind (.pure _)))))), alike_read hlength fun i hi => h.shows.gather hin hi, h⟩
      rw [Nat.mul_comm, ← rect.needed_eq]
      omega
  · rw [Grid.call_read_outside hin, if_neg (mt h.inside_iff.mp hin)]
    exact ⟨driver, _, .pure _, .refl _ _, h⟩

theorem clear_runs (h : Shown driver g) {color : UInt32} :
    ∃ driver' reply, Runs (clear driver rect color) (driver', reply) ∧
      Reply.Alike (.clear rect color) reply (g.call (.clear rect color)).2 ∧
      Shown driver' (g.call (.clear rect color)).1 := by
  rw [clear]
  by_cases hin : rect.Inside g.width g.height
  · rw [Grid.call_clear_inside hin, if_pos (h.inside_iff.mpr hin)]
    by_cases hempty : rect.width = 0 ∨ rect.height = 0
    · rw [if_pos hempty, paint_empty hempty]
      exact ⟨driver, _, .pure _, .refl _ _, h⟩
    · obtain ⟨hsize, hstride⟩ := h.limit
      have hcolumns := hin.columns BYTES_PER_PIXEL
      have hheight := hin.2
      have hsolid : (List.replicate rect.width.toNat (toLeBytes color)).flatten.length =
          rect.width.toNat * BYTES_PER_PIXEL := length_flatten_replicate rfl
      have hrows := @Runs.rows (List UInt8) rect.height.toNat
        (clearRow (List.replicate rect.width.toNat (toLeBytes color)).flatten
          (g.width * BYTES_PER_PIXEL)
          (rect.y.toNat * (g.width * BYTES_PER_PIXEL) + rect.x.toNat * BYTES_PER_PIXEL))
        (blitRows driver.framebuffer _ (g.width * BYTES_PER_PIXEL) fun _ => _) fun row hrow => by
          obtain ⟨hfits, hle⟩ := h.row_le hin hrow
          have hlength := length_blitRows h.shows.length_eq (fun _ _ => hsolid) hcolumns
            (show rect.y.toNat + row ≤ g.height by omega)
          exact .bind (runs_rowAt (by omega)) (.splice (by rw [hsolid, hlength]; exact hfits) rfl)
      have hblit := h.shows.blit (by decide) hin (fun _ _ => hsolid)
        fun _ _ i hi channel hchannel => getElem?_solid rfl hi (Nat.lt_succ_of_lt hchannel)
      have hcapacity : rect.width.toNat * 4 < 2 ^ 32 := by
        rw [BYTES_PER_PIXEL] at *
        omega
      rw [if_neg hempty]
      exact ⟨_, _, .bind (.mul hcapacity) ((runs_origin h hin).bind (.bind hrows
        (.bind (runs_flushRect h hin) (.pure _)))), .refl _ _, h.repaint hblit⟩
  · rw [Grid.call_clear_outside hin, if_neg (mt h.inside_iff.mp hin)]
    exact ⟨driver, _, .pure _, .refl _ _, h⟩

theorem step_runs (h : Shown driver g) {c : Call} (hfits : c.Fits) :
    ∃ driver' reply, Runs (step driver c) (driver', reply) ∧ Reply.Alike c reply (g.call c).2 ∧
      Shown driver' (g.call c).1 := by
  cases c with
  | present dst src => exact present_runs h hfits
  | read src dst => exact read_runs h
  | clear dst color => exact clear_runs h

/-- A call that runs exactly presents a size that is a 64-bit word. -/
theorem fits_of_runs {c : Call} {r : Driver × Reply} (h : Runs (step driver c) r) : c.Fits := by
  cases c with
  | present dst src =>
    obtain ⟨area, harea, h⟩ := runs_bind.mp h
    obtain ⟨-, rfl⟩ := runs_word.mp harea
    obtain ⟨needed, hneeded, -⟩ := runs_bind.mp h
    exact (runs_word.mp hneeded).1
  | read src dst => trivial
  | clear dst color => trivial

/-- Calls do what the grid does exactly if every size that is presented is a 64-bit word. -/
theorem faithful_iff (h : Shown driver g) (cs : List Call) :
    Faithful step Shown driver g cs ↔ ∀ c ∈ cs, c.Fits :=
  @Gfx.faithful_iff _ step Shown Call.Fits (fun _ _ _ _ hruns => fits_of_runs hruns.choose_spec)
    (fun _ _ _ hshown hfits => step_runs hshown hfits) _ _ h cs

/-- The bytes of a geometry's pixels. -/
def geometryBytes (width height : UInt32) : ℕ :=
  width.toNat * height.toNat * BYTES_PER_PIXEL

/-- A backing of the exact size is black. -/
theorem scanOut_shown {width height enabled : UInt32}
    (h : Runs (scanOut width height enabled) (.ok driver)) :
    geometryBytes width height < 2 ^ 64 ∧
      Shown driver ⟨width.toNat, height.toNat, fun _ _ _ => 0⟩ := by
  rw [scanOut] at h
  split at h
  · exact nomatch runs_pure.mp h
  · next husable =>
    obtain ⟨area, harea, h⟩ := runs_bind.mp h
    obtain ⟨-, rfl⟩ := runs_word.mp harea
    obtain ⟨bytes, hbytes, h⟩ := runs_bind.mp h
    obtain ⟨hlt, rfl⟩ := runs_word.mp hbytes
    split at h
    · exact nomatch runs_pure.mp h
    · next hsmall =>
      have hok := runs_pure.mp h
      rw [allocDma] at hok
      split at hok
      · exact nomatch hok
      · obtain rfl := Except.ok.inj hok
        have hheight : 0 < height.toNat :=
          Nat.pos_of_ne_zero fun hzero => husable (.inr (UInt32.toNat_inj.mp hzero))
        refine ⟨hlt, rfl, rfl, hheight, ?_, shows_black (by decide) (fun _ _ _ => rfl) ?_⟩
        · rw [List.length_replicate]
          exact Nat.le_of_not_lt hsmall
        · dsimp only
          rw [Nat.mul_comm width.toNat, Nat.mul_assoc]

theorem exists_runs_scanOut {width height : UInt32} (h : geometryBytes width height < 2 ^ 64)
    (enabled : UInt32) : ∃ r, Runs (scanOut width height enabled) r := by
  have harea : width.toNat * height.toNat < 2 ^ 64 := by
    rw [geometryBytes, BYTES_PER_PIXEL] at h
    omega
  rw [geometryBytes] at h
  rw [scanOut]
  split
  · exact ⟨_, .pure _⟩
  · by_cases hlarge : MAX_FRAMEBUFFER_BYTES < width.toNat * height.toNat * BYTES_PER_PIXEL
    · exact ⟨_, .bind (.mul harea) (.bind (.mul h) (by rw [if_pos hlarge]; exact .pure _))⟩
    · exact ⟨_, .bind (.mul harea) (.bind (.mul h) (by rw [if_neg hlarge]; exact .pure _))⟩

end Calls

end Eo9.Gfx.Virtio
