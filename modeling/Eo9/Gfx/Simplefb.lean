import Eo9.Gfx.Grid
import Eo9.Library.Splice

/-!
# The framebuffer of the board

`gfxfb.rs` and `gfx_provider.rs` of the kernel, whose sizes are 64-bit words: three bytes for a
pixel in memory, four in a buffer. The surface has been located; offsets count from its base.
-/

namespace Eo9.Gfx.Simplefb

open Eo9.Library

def WIDTH : UInt32 := 800

def HEIGHT : UInt32 := 480

def STRIDE : ℕ := 2400

def FB_BPP : ℕ := 3

def BUF_BPP : ℕ := 4

structure RectPlan where
  fbStart : ℕ
  rows : ℕ
  fbRowBytes : ℕ
  bufRowBytes : ℕ

def checkRect (rect : Rect) : Wrapping (Option RectPlan) :=
  if endsFit rect WIDTH HEIGHT then do
    let above ← .mul 64 rect.y.toNat STRIDE
    let left ← .mul 64 rect.x.toNat FB_BPP
    let fbStart ← .add 64 above left
    let fbRowBytes ← .mul 64 rect.width.toNat FB_BPP
    let bufRowBytes ← .mul 64 rect.width.toNat BUF_BPP
    pure (some ⟨fbStart, rect.height.toNat, fbRowBytes, bufRowBytes⟩)
  else pure none

/-- Blue, green and red of every pixel. -/
def packXrgbRow : List UInt8 → List UInt8 → List UInt8
  | b :: g :: r :: _ :: src, _ :: _ :: _ :: dst => b :: g :: r :: packXrgbRow src dst
  | _, dst => dst

/-- Blue, green and red of every pixel, and zero. -/
def unpackRgb888Row : List UInt8 → List UInt8 → List UInt8
  | b :: g :: r :: src, _ :: _ :: _ :: _ :: dst => b :: g :: r :: 0 :: unpackRgb888Row src dst
  | _, dst => dst

def colorRgb888 (color : UInt32) : List UInt8 :=
  [color.toUInt8, (color >>> 8).toUInt8, (color >>> 16).toUInt8]

/-- Every three bytes of a row become those of the color. -/
def fill (color : UInt32) : List UInt8 → List UInt8
  | _ :: _ :: _ :: row => colorRgb888 color ++ fill color row
  | row => row

def copyOut (surface : List UInt8) (offset : ℕ) (src : List UInt8) : Wrapping (List UInt8) :=
  .splice surface offset (offset + src.length) src

def copyIn (surface : List UInt8) (offset len : ℕ) : Wrapping (List UInt8) :=
  .slice surface offset (offset + len)

def bufRange (plan : RectPlan) (row : ℕ) : Wrapping (ℕ × ℕ) := do
  let start ← .mul 64 row plan.bufRowBytes
  let next ← .add 64 row 1
  let stop ← .mul 64 next plan.bufRowBytes
  pure (start, stop)

/-- The row is packed into a scratch buffer that is used again for the next. -/
def presentRow (plan : RectPlan) (bytes : List UInt8) (row : ℕ) (s : List UInt8 × List UInt8) :
    Wrapping (List UInt8 × List UInt8) := do
  let (start, stop) ← bufRange plan row
  let line ← .slice bytes start stop
  let scratch := packXrgbRow line s.1
  let offset ← rowAt 64 plan.fbStart STRIDE row
  let surface ← copyOut s.2 offset scratch
  pure (scratch, surface)

def presentImpl (surface : List UInt8) (dst : Rect) (bytes : List UInt8) :
    Wrapping (List UInt8 × Reply) := do
  match ← checkRect dst with
  | none => pure (surface, ⟨bytes, .error .outOfBounds⟩)
  | some plan =>
    match ← checkBuffer dst bytes.length with
    | .error error => pure (surface, ⟨bytes, .error error⟩)
    | .ok _ => do
        let (_, surface) ← Wrapping.rows plan.rows (presentRow plan bytes)
          (List.replicate plan.fbRowBytes 0, surface)
        pure (surface, ⟨bytes, .ok ()⟩)

def readRow (plan : RectPlan) (surface : List UInt8) (row : ℕ) (bytes : List UInt8) :
    Wrapping (List UInt8) := do
  let offset ← rowAt 64 plan.fbStart STRIDE row
  let scratch ← copyIn surface offset plan.fbRowBytes
  let (start, stop) ← bufRange plan row
  let line ← .slice bytes start stop
  .splice bytes start stop (unpackRgb888Row scratch line)

def readImpl (surface : List UInt8) (src : Rect) (bytes : List UInt8) :
    Wrapping (List UInt8 × Reply) := do
  match ← checkRect src with
  | none => pure (surface, ⟨bytes, .error .outOfBounds⟩)
  | some plan =>
    match ← checkBuffer src bytes.length with
    | .error error => pure (surface, ⟨bytes, .error error⟩)
    | .ok _ => do
        let bytes ← Wrapping.rows plan.rows (readRow plan surface) bytes
        pure (surface, ⟨bytes, .ok ()⟩)

def clearRow (plan : RectPlan) (scratch : List UInt8) (row : ℕ) (surface : List UInt8) :
    Wrapping (List UInt8) := do
  let offset ← rowAt 64 plan.fbStart STRIDE row
  copyOut surface offset scratch

def clearImpl (surface : List UInt8) (dst : Rect) (color : UInt32) :
    Wrapping (List UInt8 × Reply) := do
  match ← checkRect dst with
  | none => pure (surface, ⟨[], .error .outOfBounds⟩)
  | some plan => do
      let scratch := fill color (List.replicate plan.fbRowBytes 0)
      let surface ← Wrapping.rows plan.rows (clearRow plan scratch) surface
      pure (surface, ⟨[], .ok ()⟩)

def step (surface : List UInt8) : Call → Wrapping (List UInt8 × Reply)
  | .present dst src => presentImpl surface dst src
  | .read src dst => readImpl surface src dst
  | .clear dst color => clearImpl surface dst color

structure Shown (surface : List UInt8) (g : Grid) : Prop where
  width_eq : g.width = WIDTH.toNat
  height_eq : g.height = HEIGHT.toNat
  shows : Shows FB_BPP surface g

def FB_BYTES : ℕ := STRIDE * HEIGHT.toNat

/-- The picture that the firmware left. -/
def gridOf (surface : List UInt8) : Grid where
  width := WIDTH.toNat
  height := HEIGHT.toNat
  pixel x y channel := (surface[y * STRIDE + (x * FB_BPP + channel)]?).getD 0

theorem shown_gridOf {surface : List UInt8} (h : surface.length = FB_BYTES) :
    Shown surface (gridOf surface) where
  width_eq := rfl
  height_eq := rfl
  shows := by
    have hbytes : FB_BYTES = HEIGHT.toNat * (WIDTH.toNat * FB_BPP) := by decide
    have hlength : surface.length = (gridOf surface).height * ((gridOf surface).width * FB_BPP) :=
      h.trans hbytes
    refine ⟨hlength, fun x hx y hy channel hchannel => ?_⟩
    have hplace := @place_lt FB_BPP _ _ _ _ le_rfl hx hy hchannel
    rw [← hlength] at hplace
    exact getElem?_eq_some_getD hplace 0

section Calls

open Wrapping

variable {surface : List UInt8} {g : Grid} {rect : Rect}

/-- A pixel in front of rows that agree, in both with what follows its three bytes. -/
theorem pixels_cons {b g r : UInt8} (pad pad' : List UInt8) {xs ys : List UInt8} {m m' n : ℕ}
    (hm : pad.length + 3 = m) (hm' : pad'.length + 3 = m')
    (h : ∀ i < n, ∀ channel < 3, xs[i * m + channel]? = ys[i * m' + channel]?) :
    ∀ i < n + 1, ∀ channel < 3, (b :: g :: r :: pad ++ xs)[i * m + channel]? =
      (b :: g :: r :: pad' ++ ys)[i * m' + channel]? := by
  intro i hi channel hchannel
  cases i with
  | zero =>
    rw [Nat.zero_mul, Nat.zero_mul, Nat.zero_add]
    rcases channel with - | - | - | channel
    · rfl
    · rfl
    · rfl
    · omega
  | succ i =>
    have hfront : (b :: g :: r :: pad).length = m := hm
    have hfront' : (b :: g :: r :: pad').length = m' := hm'
    have hnext : (i + 1) * m + channel - m = i * m + channel := by
      rw [Nat.succ_mul]
      omega
    have hnext' : (i + 1) * m' + channel - m' = i * m' + channel := by
      rw [Nat.succ_mul]
      omega
    rw [List.getElem?_append_right (by rw [hfront, Nat.succ_mul]; omega), hfront, hnext,
      List.getElem?_append_right (by rw [hfront', Nat.succ_mul]; omega), hfront', hnext']
    exact h i (Nat.lt_of_succ_lt_succ hi) channel hchannel

/-- A row with a pixel in front. -/
theorem exists_cons_three {l : List UInt8} {n : ℕ} (h : l.length = n + 3) :
    ∃ b g r rest, l = b :: g :: r :: rest ∧ rest.length = n := by
  rcases l with - | ⟨b, - | ⟨g, - | ⟨r, rest⟩⟩⟩
  · exact nomatch h
  · exact nomatch Nat.succ.inj h
  · exact nomatch Nat.succ.inj (Nat.succ.inj h)
  · exact ⟨b, g, r, rest, rfl, Nat.succ.inj (Nat.succ.inj (Nat.succ.inj h))⟩

theorem exists_cons_four {l : List UInt8} {n : ℕ} (h : l.length = n + 4) :
    ∃ b g r x rest, l = b :: g :: r :: x :: rest ∧ rest.length = n := by
  obtain ⟨b, g, r, rest, rfl, hrest⟩ := exists_cons_three (n := n + 1) h
  obtain ⟨x, rest', rfl⟩ := List.exists_cons_of_length_eq_add_one hrest
  exact ⟨b, g, r, x, rest', rfl, Nat.succ.inj hrest⟩

theorem packXrgbRow_spec {n : ℕ} {src dst : List UInt8} (hsrc : src.length = n * BUF_BPP)
    (hdst : dst.length = n * FB_BPP) :
    (packXrgbRow src dst).length = n * FB_BPP ∧ ∀ i < n, ∀ channel < 3,
      (packXrgbRow src dst)[i * FB_BPP + channel]? = src[i * BUF_BPP + channel]? := by
  induction n generalizing src dst with
  | zero =>
    rw [Nat.zero_mul, List.length_eq_zero_iff] at hsrc hdst
    subst hsrc hdst
    exact ⟨rfl, nofun⟩
  | succ n ih =>
    rw [Nat.succ_mul] at hsrc hdst
    obtain ⟨b, g, r, x, src', rfl, hsrc'⟩ := exists_cons_four hsrc
    obtain ⟨b', g', r', dst', rfl, hdst'⟩ := exists_cons_three hdst
    obtain ⟨hlength, hpixels⟩ := ih hsrc' hdst'
    rw [packXrgbRow, Nat.succ_mul]
    exact ⟨congrArg (· + 3) hlength, pixels_cons [] [x] rfl rfl hpixels⟩

theorem unpackRgb888Row_spec {n : ℕ} {src dst : List UInt8} (hsrc : src.length = n * FB_BPP)
    (hdst : dst.length = n * BUF_BPP) :
    (unpackRgb888Row src dst).length = n * BUF_BPP ∧ ∀ i < n, ∀ channel < 3,
      (unpackRgb888Row src dst)[i * BUF_BPP + channel]? = src[i * FB_BPP + channel]? := by
  induction n generalizing src dst with
  | zero =>
    rw [Nat.zero_mul, List.length_eq_zero_iff] at hsrc hdst
    subst hsrc hdst
    exact ⟨rfl, nofun⟩
  | succ n ih =>
    rw [Nat.succ_mul] at hsrc hdst
    obtain ⟨b, g, r, src', rfl, hsrc'⟩ := exists_cons_three hsrc
    obtain ⟨b', g', r', x', dst', rfl, hdst'⟩ := exists_cons_four hdst
    obtain ⟨hlength, hpixels⟩ := ih hsrc' hdst'
    rw [unpackRgb888Row, Nat.succ_mul]
    exact ⟨congrArg (· + 4) hlength, pixels_cons [0] [] rfl rfl hpixels⟩

theorem fill_eq (color : UInt32) (n : ℕ) :
    fill color (List.replicate (n * FB_BPP) 0) = (List.replicate n (colorRgb888 color)).flatten := by
  induction n with
  | zero => rfl
  | succ n ih =>
    rw [FB_BPP] at *
    have hnext : (n + 1) * 3 = n * 3 + 1 + 1 + 1 := by omega
    rw [hnext, List.replicate_succ, List.replicate_succ, List.replicate_succ, fill, ih]
    rfl

theorem Shown.inside_iff (h : Shown surface g) :
    endsFit rect WIDTH HEIGHT = true ↔ rect.Inside g.width g.height := by
  rw [endsFit_iff, h.width_eq, h.height_eq]

theorem Shown.stride_eq (h : Shown surface g) : g.width * FB_BPP = STRIDE := by
  rw [h.width_eq]
  rfl

theorem Shown.length_eq (h : Shown surface g) : surface.length = HEIGHT.toNat * STRIDE := by
  rw [h.shows.length_eq, h.height_eq, h.stride_eq]

/-- Where a rectangle lies in memory and in a buffer. -/
def planOf (rect : Rect) : RectPlan :=
  ⟨rect.y.toNat * STRIDE + rect.x.toNat * FB_BPP, rect.height.toNat, rect.width.toNat * FB_BPP,
    rect.width.toNat * BUF_BPP⟩

theorem runs_checkRect (h : Shown surface g) (hin : rect.Inside g.width g.height) :
    Runs (checkRect rect) (some (planOf rect)) := by
  have hx := rect.x.toNat_lt
  have hy := rect.y.toNat_lt
  have hwidth := rect.width.toNat_lt
  rw [checkRect, if_pos (h.inside_iff.mpr hin), STRIDE, FB_BPP, BUF_BPP]
  refine .bind (.mul ?_) (.bind (.mul ?_) (.bind (.add ?_) (.bind (.mul ?_) (.bind (.mul ?_)
    (.pure _)))))
  all_goals omega

theorem runs_checkRect_outside (h : Shown surface g) (hout : ¬rect.Inside g.width g.height) :
    Runs (checkRect rect) none := by
  rw [checkRect, if_neg (mt h.inside_iff.mp hout)]
  exact .pure _

/-- A row of the rectangle lies in the surface. -/
theorem Shown.row_le (h : Shown surface g) (hin : rect.Inside g.width g.height) {row : ℕ}
    (hrow : row < rect.height.toNat) :
    (planOf rect).fbStart + row * STRIDE + rect.width.toNat * FB_BPP ≤ surface.length := by
  rw [h.shows.length_eq, h.stride_eq]
  exact hin.row_le (Nat.le_of_eq h.stride_eq) hrow

theorem Shown.needed_lt (h : Shown surface g) (hin : rect.Inside g.width g.height) :
    rect.needed < 2 ^ 32 := by
  have hneeded := hin.needed_le
  rw [h.width_eq, h.height_eq] at hneeded
  exact Nat.lt_of_le_of_lt hneeded (by decide)

theorem runs_bufRange (h : Shown surface g) (hin : rect.Inside g.width g.height) {row : ℕ}
    (hrow : row < rect.height.toNat) :
    Runs (bufRange (planOf rect) row) (row * (rect.width.toNat * BUF_BPP),
      row * (rect.width.toNat * BUF_BPP) + rect.width.toNat * BUF_BPP) := by
  have hline : row * (rect.width.toNat * BUF_BPP) + rect.width.toNat * BUF_BPP ≤ rect.needed := by
    rw [rect.needed_eq]
    exact Rect.line_le hrow _
  have hneeded := h.needed_lt hin
  have hheight := rect.height.toNat_lt
  have hnext : row * (rect.width.toNat * BUF_BPP) + rect.width.toNat * BUF_BPP =
      (row + 1) * (rect.width.toNat * BUF_BPP) := (Nat.succ_mul _ _).symm
  rw [hnext] at hline ⊢
  refine .bind (.mul ?_) (.bind (.add (by omega)) (.bind (.mul ?_) (.pure _)))
  · exact Nat.lt_of_le_of_lt (Nat.mul_le_mul_right _ (Nat.le_succ row))
      (Nat.lt_of_le_of_lt hline (by omega))
  · exact Nat.lt_of_le_of_lt hline (by omega)

/-- The lines of a buffer without their fourth bytes. -/
def packedLine (rect : Rect) (src : List UInt8) (row : ℕ) : List UInt8 :=
  packXrgbRow (sub (sub src 0 rect.needed) (row * (rect.width.toNat * BUF_BPP))
    (rect.width.toNat * BUF_BPP)) (List.replicate (rect.width.toNat * FB_BPP) 0)

theorem packXrgbRow_congr {n : ℕ} {src dst dst' : List UInt8} (hsrc : src.length = n * BUF_BPP)
    (hdst : dst.length = n * FB_BPP) (hdst' : dst'.length = n * FB_BPP) :
    packXrgbRow src dst = packXrgbRow src dst' := by
  induction n generalizing src dst dst' with
  | zero =>
    rw [Nat.zero_mul, List.length_eq_zero_iff] at hdst hdst'
    rw [hdst, hdst']
  | succ n ih =>
    rw [Nat.succ_mul] at hsrc hdst hdst'
    obtain ⟨b, g, r, x, src₁, rfl, hsrc₁⟩ := exists_cons_four hsrc
    obtain ⟨b₁, g₁, r₁, dst₁, rfl, hdst₁⟩ := exists_cons_three hdst
    obtain ⟨b₂, g₂, r₂, dst₂, rfl, hdst₂⟩ := exists_cons_three hdst'
    rw [packXrgbRow, packXrgbRow, ih hsrc₁ hdst₁ hdst₂]

theorem presentRow_runs (h : Shown surface g) (hin : rect.Inside g.width g.height)
    {src scratch mem : List UInt8} (hsrc : rect.needed ≤ src.length)
    (hscratch : scratch.length = rect.width.toNat * FB_BPP) (hmem : mem.length = surface.length)
    {row : ℕ} (hrow : row < rect.height.toNat) :
    Runs (presentRow (planOf rect) src row (scratch, mem)) (packedLine rect src row,
      copyInto mem ((planOf rect).fbStart + row * STRIDE) (packedLine rect src row)) := by
  have hfits := h.row_le hin hrow
  have hlt : surface.length < 2 ^ 64 := h.length_eq ▸ (by decide)
  have hline := Rect.line_le hrow BUF_BPP
  have hneeded : rect.needed = rect.height.toNat * (rect.width.toNat * BUF_BPP) := rect.needed_eq
  rw [← hneeded] at hline
  have hslice := sub_of_sub (l := src) (i := 0) hline
  rw [Nat.zero_add] at hslice
  have hlength := length_line hsrc hrow
  have hpacked : (packedLine rect src row).length = rect.width.toNat * FB_BPP :=
    (packXrgbRow_spec hlength List.length_replicate).1
  have hpack : packXrgbRow (sub src (row * (rect.width.toNat * BUF_BPP)) (rect.width.toNat * BUF_BPP))
      scratch = packedLine rect src row := by
    rw [← hslice]
    exact packXrgbRow_congr hlength hscratch List.length_replicate
  have hcopy : Runs (copyOut mem ((planOf rect).fbStart + row * STRIDE) (packedLine rect src row))
      (copyInto mem ((planOf rect).fbStart + row * STRIDE) (packedLine rect src row)) :=
    .splice (by rw [hpacked, hmem]; exact hfits) rfl
  refine .bind (runs_bufRange h hin hrow) (.bind (.slice ?_) (.bind (runs_rowAt ?_) ?_))
  · omega
  · omega
  · dsimp only
    rw [hpack]
    exact hcopy.bind (.pure _)

theorem packedLine_spec {src : List UInt8} (hsrc : rect.needed ≤ src.length) {j : ℕ}
    (hj : j < rect.height.toNat) :
    (packedLine rect src j).length = rect.width.toNat * FB_BPP ∧
      ∀ i < rect.width.toNat, ∀ channel < 3, (packedLine rect src j)[i * FB_BPP + channel]? =
        some ((src[(j * rect.width.toNat + i) * BYTES_PER_PIXEL + channel]?).getD 0) := by
  obtain ⟨hlength, hpixels⟩ := packXrgbRow_spec (length_line hsrc hj)
    (List.length_replicate (n := rect.width.toNat * FB_BPP) (a := (0 : UInt8)))
  refine ⟨hlength, fun i hi channel hchannel => ?_⟩
  exact (hpixels i hi channel hchannel).trans (getElem?_line hsrc hj hi hchannel)

/-- A rectangle of packed lines, painted. -/
theorem Shown.blit (h : Shown surface g) (hin : rect.Inside g.width g.height)
    {lines : ℕ → List UInt8} {new : ℕ → ℕ → ℕ → UInt8}
    (hlines : ∀ j < rect.height.toNat, (lines j).length = rect.width.toNat * FB_BPP)
    (hnew : ∀ j < rect.height.toNat, ∀ i < rect.width.toNat, ∀ channel < 3,
      (lines j)[i * FB_BPP + channel]? = some (new i j channel)) :
    Shown (blitRows surface (planOf rect).fbStart STRIDE lines rect.height.toNat)
      (g.paint rect new) := by
  have hblit := h.shows.blit le_rfl hin hlines hnew
  rw [h.stride_eq] at hblit
  exact ⟨h.width_eq, h.height_eq, hblit⟩

/-- What a loop has put into the surface after some of its rows. -/
theorem Shown.length_blit (h : Shown surface g) (hin : rect.Inside g.width g.height)
    {lines : ℕ → List UInt8} {row : ℕ} (hrow : row ≤ rect.height.toNat)
    (hlines : ∀ j < row, (lines j).length = rect.width.toNat * FB_BPP) :
    (blitRows surface (planOf rect).fbStart STRIDE lines row).length = surface.length := by
  have hheight := hin.2
  have hcolumns := hin.columns FB_BPP
  have hlength := h.shows.length_eq
  rw [h.stride_eq] at hcolumns hlength
  exact length_blitRows hlength hlines hcolumns (by omega)

theorem present_runs (h : Shown surface g) {src : List UInt8} :
    ∃ surface' reply, Runs (presentImpl surface rect src) (surface', reply) ∧
      Reply.Alike (.present rect src) reply (g.call (.present rect src)).2 ∧
      Shown surface' (g.call (.present rect src)).1 := by
  by_cases hin : rect.Inside g.width g.height
  · have hneeded := h.needed_lt hin
    have hfits : rect.needed < 2 ^ 64 := by omega
    by_cases hshort : src.length < rect.needed
    · rw [Grid.call_present_short hin hshort]
      exact ⟨surface, _, (runs_checkRect h hin).bind (.bind
        (runs_checkBuffer.mpr ⟨hfits, (if_pos hshort).symm⟩) (.pure _)), .refl _ _, h⟩
    · have hlong : rect.needed ≤ src.length := Nat.le_of_not_lt hshort
      obtain ⟨⟨scratch, mem⟩, hrows, -, hmem⟩ := @exists_runs_rows _ rect.height.toNat
        (presentRow (planOf rect) src) (fun row s => s.1.length = rect.width.toNat * FB_BPP ∧
          s.2 = blitRows surface (planOf rect).fbStart STRIDE (packedLine rect src) row)
        (List.replicate (rect.width.toNat * FB_BPP) 0, surface) ⟨List.length_replicate, rfl⟩ (by
          rintro row hrow ⟨scratch, mem⟩ ⟨hscratch, hmem⟩
          dsimp only at hscratch hmem
          have hlength := h.length_blit hin (Nat.le_of_lt hrow) fun j hj =>
            (packedLine_spec hlong (Nat.lt_trans hj hrow)).1
          refine ⟨_, presentRow_runs h hin hlong hscratch ?_ hrow, (packedLine_spec hlong hrow).1, ?_⟩
          · rw [hmem]
            exact hlength
          · rw [hmem]
            rfl)
      dsimp only at hmem
      subst hmem
      have hblit := h.blit hin (fun j hj => (packedLine_spec hlong hj).1) fun j hj =>
        (packedLine_spec hlong hj).2
      rw [Grid.call_present_inside hin hshort]
      exact ⟨_, _, (runs_checkRect h hin).bind (.bind
        (runs_checkBuffer.mpr ⟨hfits, (if_neg hshort).symm⟩) (.bind hrows (.pure _))), .refl _ _,
        hblit⟩
  · rw [Grid.call_present_outside hin]
    exact ⟨surface, _, (runs_checkRect_outside h hin).bind (.pure _), .refl _ _, h⟩

/-- A buffer into which some rows of the rectangle were read. -/
structure ReadUpTo (g : Grid) (rect : Rect) (dst : List UInt8) (row : ℕ) (bytes : List UInt8) : Prop where
  length_eq : bytes.length = dst.length
  pixel : ∀ j < row, ∀ i < rect.width.toNat, ∀ channel < 3,
    bytes[j * (rect.width.toNat * BUF_BPP) + (i * BUF_BPP + channel)]? =
      some (g.pixel (rect.x.toNat + i) (rect.y.toNat + j) channel)
  behind : ∀ k, row * (rect.width.toNat * BUF_BPP) ≤ k → bytes[k]? = dst[k]?

theorem Shown.getElem?_row (h : Shown surface g) (hin : rect.Inside g.width g.height) {row i channel : ℕ}
    (hrow : row < rect.height.toNat) (hi : i < rect.width.toNat) (hchannel : channel < 3) :
    (sub surface ((planOf rect).fbStart + row * STRIDE) (rect.width.toNat * FB_BPP))[i * FB_BPP +
      channel]? = some (g.pixel (rect.x.toNat + i) (rect.y.toNat + row) channel) := by
  have hx : rect.x.toNat + i < g.width := Nat.lt_of_lt_of_le (Nat.add_lt_add_left hi _) hin.1
  have hy : rect.y.toNat + row < g.height := Nat.lt_of_lt_of_le (Nat.add_lt_add_left hrow _) hin.2
  have hcolumn : i * FB_BPP + channel < rect.width.toNat * FB_BPP := by
    rw [FB_BPP]
    omega
  have hplace : (planOf rect).fbStart + row * STRIDE + (i * FB_BPP + channel) =
      (rect.y.toNat + row) * (g.width * FB_BPP) + ((rect.x.toNat + i) * FB_BPP + channel) := by
    have hstart : (planOf rect).fbStart = rect.y.toNat * STRIDE + rect.x.toNat * FB_BPP := rfl
    rw [hstart, h.stride_eq, Nat.add_mul, Nat.add_mul]
    omega
  rw [getElem?_sub, if_pos hcolumn, hplace]
  exact h.shows.pixel _ hx _ hy _ hchannel

theorem readRow_runs (h : Shown surface g) (hin : rect.Inside g.width g.height) {dst bytes : List UInt8}
    (hdst : rect.needed ≤ dst.length) {row : ℕ} (hrow : row < rect.height.toNat)
    (hread : ReadUpTo g rect dst row bytes) :
    ∃ bytes', Runs (readRow (planOf rect) surface row bytes) bytes' ∧
      ReadUpTo g rect dst (row + 1) bytes' := by
  have hfits := h.row_le hin hrow
  have hlt : surface.length < 2 ^ 64 := h.length_eq ▸ (by decide)
  have hline := Rect.line_le hrow BUF_BPP
  have hneeded : rect.needed = rect.height.toNat * (rect.width.toNat * BUF_BPP) := rect.needed_eq
  rw [← hneeded] at hline
  have hbytes : row * (rect.width.toNat * BUF_BPP) + rect.width.toNat * BUF_BPP ≤ bytes.length := by
    rw [hread.length_eq]
    omega
  obtain ⟨hlength, hpixels⟩ := unpackRgb888Row_spec (length_sub hfits) (length_sub hbytes)
  have hrange : row * (rect.width.toNat * BUF_BPP) + (unpackRgb888Row
      (sub surface ((planOf rect).fbStart + row * STRIDE) (rect.width.toNat * FB_BPP))
      (sub bytes (row * (rect.width.toNat * BUF_BPP)) (rect.width.toNat * BUF_BPP))).length ≤
        bytes.length := by
    rwa [hlength]
  have hruns : Runs (readRow (planOf rect) surface row bytes)
      (copyInto bytes (row * (rect.width.toNat * BUF_BPP)) (unpackRgb888Row
        (sub surface ((planOf rect).fbStart + row * STRIDE) (rect.width.toNat * FB_BPP))
        (sub bytes (row * (rect.width.toNat * BUF_BPP)) (rect.width.toNat * BUF_BPP)))) :=
    .bind (runs_rowAt (by omega)) (.bind (.slice hfits) (.bind (runs_bufRange h hin hrow)
      (.bind (.slice hbytes) (.splice hbytes hlength))))
  refine ⟨_, hruns, ?_, ?_, ?_⟩
  · rw [length_copyInto hrange, hread.length_eq]
  · intro j hj i hi channel hchannel
    have hcolumn : i * BUF_BPP + channel < rect.width.toNat * BUF_BPP := by
      rw [BUF_BPP]
      omega
    rw [getElem?_copyInto hrange, hlength]
    rcases Nat.lt_succ_iff_lt_or_eq.mp hj with hbefore | rfl
    · have hnext := Nat.mul_le_mul_right (rect.width.toNat * BUF_BPP) hbefore
      rw [Nat.succ_mul] at hnext
      rw [if_neg (by omega)]
      exact hread.pixel j hbefore i hi channel hchannel
    · rw [if_pos (by omega), Nat.add_sub_cancel_left, hpixels i hi channel hchannel]
      exact h.getElem?_row hin hrow hi hchannel
  · intro k hk
    rw [Nat.succ_mul] at hk
    rw [getElem?_copyInto hrange, hlength, if_neg (by omega)]
    exact hread.behind k (by omega)

/-- A buffer into which all rows were read. -/
theorem ReadUpTo.alike {dst bytes : List UInt8} (h : ReadUpTo g rect dst rect.height.toNat bytes)
    (hdst : rect.needed ≤ dst.length) :
    Reply.Alike (.read rect dst) ⟨bytes, .ok ()⟩ ⟨g.packed rect ++ dst.drop rect.needed, .ok ()⟩ := by
  have hneeded : rect.needed = rect.height.toNat * (rect.width.toNat * BUF_BPP) := rect.needed_eq
  have hbehind : bytes.drop rect.needed = dst.drop rect.needed := by
    apply List.ext_getElem?
    intro k
    rw [List.getElem?_drop, List.getElem?_drop]
    exact h.behind _ (by omega)
  have hsplit : bytes = bytes.take rect.needed ++ dst.drop rect.needed := by
    rw [← hbehind, List.take_append_drop]
  have hlength : (bytes.take rect.needed).length = rect.needed :=
    List.length_take_of_le (by rw [h.length_eq]; exact hdst)
  rw [hsplit]
  refine alike_read hlength fun i hi => packed_alike hlength (fun j hj k hk channel hchannel => ?_) hi
  have hline := Rect.line_le hj BUF_BPP
  have hplace : j * (rect.width.toNat * BYTES_PER_PIXEL) + (k * BYTES_PER_PIXEL + channel) <
      rect.needed := by
    rw [hneeded, BYTES_PER_PIXEL]
    rw [BUF_BPP] at *
    omega
  rw [List.getElem?_take_of_lt hplace]
  exact h.pixel j hj k hk channel hchannel

theorem read_runs (h : Shown surface g) {dst : List UInt8} :
    ∃ surface' reply, Runs (readImpl surface rect dst) (surface', reply) ∧
      Reply.Alike (.read rect dst) reply (g.call (.read rect dst)).2 ∧
      Shown surface' (g.call (.read rect dst)).1 := by
  by_cases hin : rect.Inside g.width g.height
  · have hneeded := h.needed_lt hin
    have hfits : rect.needed < 2 ^ 64 := by omega
    by_cases hshort : dst.length < rect.needed
    · rw [Grid.call_read_short hin hshort]
      exact ⟨surface, _, (runs_checkRect h hin).bind (.bind
        (runs_checkBuffer.mpr ⟨hfits, (if_pos hshort).symm⟩) (.pure _)), .refl _ _, h⟩
    · have hlong : rect.needed ≤ dst.length := Nat.le_of_not_lt hshort
      obtain ⟨bytes, hrows, hread⟩ := @exists_runs_rows _ rect.height.toNat
        (readRow (planOf rect) surface) (ReadUpTo g rect dst) dst ⟨rfl, nofun, fun _ _ => rfl⟩
        fun row hrow _ hread => readRow_runs h hin hlong hrow hread
      rw [Grid.call_read_inside hin hshort]
      exact ⟨surface, _, (runs_checkRect h hin).bind (.bind
        (runs_checkBuffer.mpr ⟨hfits, (if_neg hshort).symm⟩) (.bind hrows (.pure _))),
        hread.alike hlong, h⟩
  · rw [Grid.call_read_outside hin]
    exact ⟨surface, _, (runs_checkRect_outside h hin).bind (.pure _), .refl _ _, h⟩

/-- The bytes of a color that are kept are its first three. -/
theorem colorRgb888_eq (color : UInt32) {channel : ℕ} (h : channel < 3) :
    (colorRgb888 color)[channel]? = (toLeBytes color)[channel]? := by
  rcases channel with - | - | - | channel
  · rfl
  · rfl
  · rfl
  · omega

theorem clear_runs (h : Shown surface g) {color : UInt32} :
    ∃ surface' reply, Runs (clearImpl surface rect color) (surface', reply) ∧
      Reply.Alike (.clear rect color) reply (g.call (.clear rect color)).2 ∧
      Shown surface' (g.call (.clear rect color)).1 := by
  by_cases hin : rect.Inside g.width g.height
  · have hlt : surface.length < 2 ^ 64 := h.length_eq ▸ (by decide)
    have hsolid : (fill color (List.replicate (rect.width.toNat * FB_BPP) 0)).length =
        rect.width.toNat * FB_BPP := by
      rw [fill_eq]
      exact length_flatten_replicate rfl
    have hrows := @Runs.rows (List UInt8) rect.height.toNat (clearRow (planOf rect)
        (fill color (List.replicate (rect.width.toNat * FB_BPP) 0)))
      (blitRows surface (planOf rect).fbStart STRIDE fun _ =>
        fill color (List.replicate (rect.width.toNat * FB_BPP) 0)) fun row hrow => by
          have hfits := h.row_le hin hrow
          have hlength := h.length_blit hin (Nat.le_of_lt hrow) fun _ _ => hsolid
          refine .bind (runs_rowAt (by omega)) (.splice ?_ rfl)
          rw [hsolid, hlength]
          exact hfits
    have hpixels : ∀ j < rect.height.toNat, ∀ i < rect.width.toNat, ∀ channel < 3,
        (fill color (List.replicate (rect.width.toNat * FB_BPP) 0))[i * FB_BPP + channel]? =
          some (((toLeBytes color)[channel]?).getD 0) := by
      intro j _ i hi channel hchannel
      rw [fill_eq, ← colorRgb888_eq color hchannel]
      exact getElem?_solid rfl hi hchannel
    have hblit := h.blit hin (fun _ _ => hsolid) hpixels
    rw [Grid.call_clear_inside hin]
    exact ⟨_, _, (runs_checkRect h hin).bind (.bind hrows (.pure _)), .refl _ _, hblit⟩
  · rw [Grid.call_clear_outside hin]
    exact ⟨surface, _, (runs_checkRect_outside h hin).bind (.pure _), .refl _ _, h⟩

/-- Every call does what the grid does, whatever is presented. -/
theorem step_runs (h : Shown surface g) (c : Call) :
    ∃ surface' reply, Runs (step surface c) (surface', reply) ∧ Reply.Alike c reply (g.call c).2 ∧
      Shown surface' (g.call c).1 := by
  cases c with
  | present dst src => exact present_runs h
  | read src dst => exact read_runs h
  | clear dst color => exact clear_runs h

/-- Calls do what the grid does. -/
theorem faithful (h : Shown surface g) (cs : List Call) : Faithful step Shown surface g cs := by
  have hiff := @Gfx.faithful_iff _ step Shown (fun _ => True) (fun _ _ _ _ _ => trivial)
    (fun _ _ c hshown _ => step_runs hshown c) _ _ h cs
  exact hiff.mpr fun _ _ => trivial

end Calls

end Eo9.Gfx.Simplefb
