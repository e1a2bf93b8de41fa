import Eo9.Gfx.Grid

/-!
# The framebuffer in memory

`gfx-mem/src/lib.rs`. A guest's sizes are 32-bit words.
-/

namespace Eo9.Gfx.Mem

open Eo9.Library

def MAX_DIM : ℕ := 4096

structure Framebuffer where
  width : UInt32
  height : UInt32
  pixels : List UInt8

def makeFramebuffer (width height : UInt32) : Wrapping Framebuffer := do
  let area ← .mul 32 width.toNat height.toNat
  let len ← .mul 32 area BYTES_PER_PIXEL
  pure ⟨width, height, List.replicate len 0⟩

def configure (width height : UInt32) : Wrapping (Except String Framebuffer) :=
  if width = 0 ∨ height = 0 ∨ MAX_DIM < width.toNat ∨ MAX_DIM < height.toNat then
    pure (.error s!"framebuffer geometry must be 1..={MAX_DIM} on each side, got {width}x{height}")
  else do
    let fb ← makeFramebuffer width height
    pure (.ok fb)

/-- The stride, the bytes of a row of the rectangle and the offset of its first pixel. -/
def checkRect (fb : Framebuffer) (rect : Rect) : Wrapping (Except GfxError (ℕ × ℕ × ℕ)) :=
  if endsFit rect fb.width fb.height then do
    let stride ← .mul 32 fb.width.toNat BYTES_PER_PIXEL
    let rowBytes ← .mul 32 rect.width.toNat BYTES_PER_PIXEL
    let above ← .mul 32 rect.y.toNat stride
    let left ← .mul 32 rect.x.toNat BYTES_PER_PIXEL
    let start ← .add 32 above left
    pure (.ok (stride, rowBytes, start))
  else pure (.error .outOfBounds)

/-- The bytes that are presented. -/
def copyOut (src : List UInt8) : Except GfxError ℕ → Wrapping (List UInt8)
  | .ok needed => if 0 < needed then .slice src 0 needed else pure []
  | .error _ => pure []

def presentRow (stride rowBytes start : ℕ) (bytes : List UInt8) (row : ℕ) (pixels : List UInt8) :
    Wrapping (List UInt8) := do
  let fbOff ← rowAt 32 start stride row
  let srcOff ← .mul 32 row rowBytes
  let srcStop ← .add 32 srcOff rowBytes
  let line ← .slice bytes srcOff srcStop
  let fbStop ← .add 32 fbOff rowBytes
  .splice pixels fbOff fbStop line

/-- The buffer is copied out before the rectangle is checked. -/
def present (fb : Framebuffer) (dst : Rect) (src : List UInt8) : Wrapping (Framebuffer × Reply) := do
  let checked ← checkBuffer dst src.length
  let bytes ← copyOut src checked
  match ← checkRect fb dst with
  | .error error => pure (fb, ⟨src, .error error⟩)
  | .ok (stride, rowBytes, start) =>
    match checked with
    | .error error => pure (fb, ⟨src, .error error⟩)
    | .ok _ => do
        let pixels ← Wrapping.rows dst.height.toNat (presentRow stride rowBytes start bytes) fb.pixels
        pure ({ fb with pixels }, ⟨src, .ok ()⟩)

def readRow (pixels : List UInt8) (stride rowBytes start row : ℕ) (out : List UInt8) :
    Wrapping (List UInt8) := do
  let fbOff ← rowAt 32 start stride row
  let fbStop ← .add 32 fbOff rowBytes
  let line ← .slice pixels fbOff fbStop
  pure (out ++ line)

def read (fb : Framebuffer) (src : Rect) (dst : List UInt8) : Wrapping (Framebuffer × Reply) := do
  match ← checkRect fb src with
  | .error error => pure (fb, ⟨dst, .error error⟩)
  | .ok (stride, rowBytes, start) =>
    match ← checkBuffer src dst.length with
    | .error error => pure (fb, ⟨dst, .error error⟩)
    | .ok _ => do
        let _capacity ← .mul 32 rowBytes src.height.toNat
        let bytes ← Wrapping.rows src.height.toNat (readRow fb.pixels stride rowBytes start) []
        let dst ← copyIn dst bytes
        pure (fb, ⟨dst, .ok ()⟩)

/-- Every four bytes of a row become those of the color. -/
def fill (color : UInt32) : List UInt8 → List UInt8
  | _ :: _ :: _ :: _ :: row => toLeBytes color ++ fill color row
  | row => row

def clearRow (color : UInt32) (stride rowBytes start row : ℕ) (pixels : List UInt8) :
    Wrapping (List UInt8) := do
  let fbOff ← rowAt 32 start stride row
  let fbStop ← .add 32 fbOff rowBytes
  let line ← .slice pixels fbOff fbStop
  .splice pixels fbOff fbStop (fill color line)

def clear (fb : Framebuffer) (dst : Rect) (color : UInt32) : Wrapping (Framebuffer × Reply) := do
  match ← checkRect fb dst with
  | .error error => pure (fb, ⟨[], .error error⟩)
  | .ok (stride, rowBytes, start) => do
      let pixels ← Wrapping.rows dst.height.toNat (clearRow color stride rowBytes start) fb.pixels
      pure ({ fb with pixels }, ⟨[], .ok ()⟩)

def step (fb : Framebuffer) : Call → Wrapping (Framebuffer × Reply)
  | .present dst src => present fb dst src
  | .read src dst => read fb src dst
  | .clear dst color => clear fb dst color

/-- A framebuffer of a geometry that is admitted, and what it shows. -/
structure Shown (fb : Framebuffer) (g : Grid) : Prop where
  width_eq : g.width = fb.width.toNat
  height_eq : g.height = fb.height.toNat
  width_le : g.width ≤ MAX_DIM
  height_le : g.height ≤ MAX_DIM
  shows : Shows BYTES_PER_PIXEL fb.pixels g

section Calls

open Wrapping

variable {fb : Framebuffer} {g : Grid} {rect : Rect}

theorem Shown.inside_iff (h : Shown fb g) :
    endsFit rect fb.width fb.height = true ↔ rect.Inside g.width g.height := by
  rw [endsFit_iff, h.width_eq, h.height_eq]

/-- Every size is a 32-bit word. -/
theorem Shown.limit (h : Shown fb g) :
    g.height * (g.width * BYTES_PER_PIXEL) + g.width * BYTES_PER_PIXEL < 2 ^ 32 := by
  have hwidth : g.width * BYTES_PER_PIXEL ≤ MAX_DIM * BYTES_PER_PIXEL :=
    Nat.mul_le_mul_right _ h.width_le
  calc g.height * (g.width * BYTES_PER_PIXEL) + g.width * BYTES_PER_PIXEL
    _ ≤ MAX_DIM * (MAX_DIM * BYTES_PER_PIXEL) + MAX_DIM * BYTES_PER_PIXEL :=
      Nat.add_le_add (Nat.mul_le_mul h.height_le hwidth) hwidth
    _ < 2 ^ 32 := by decide

theorem runs_checkRect (h : Shown fb g) (hin : rect.Inside g.width g.height) :
    Runs (checkRect fb rect) (.ok (g.width * BYTES_PER_PIXEL, rect.width.toNat * BYTES_PER_PIXEL,
      rect.y.toNat * (g.width * BYTES_PER_PIXEL) + rect.x.toNat * BYTES_PER_PIXEL)) := by
  have hlimit := h.limit
  have hcolumns := hin.columns BYTES_PER_PIXEL
  have hstart := hin.start_le (g.width * BYTES_PER_PIXEL) BYTES_PER_PIXEL
  rw [checkRect, if_pos (h.inside_iff.mpr hin), ← h.width_eq]
  refine .bind (.mul ?_) (.bind (.mul ?_) (.bind (.mul ?_) (.bind (.mul ?_) (.bind (.add ?_)
    (.pure _)))))
  all_goals omega

theorem runs_checkRect_outside (h : Shown fb g) (hout : ¬rect.Inside g.width g.height) :
    Runs (checkRect fb rect) (.error .outOfBounds) := by
  rw [checkRect, if_neg (mt h.inside_iff.mp hout)]
  exact .pure _

/-- The grid after the pixels are painted. -/
theorem Shown.repaint (h : Shown fb g) {pixels : List UInt8} {new : ℕ → ℕ → ℕ → UInt8}
    (hshows : Shows BYTES_PER_PIXEL pixels (g.paint rect new)) :
    Shown { fb with pixels } (g.paint rect new) :=
  ⟨h.width_eq, h.height_eq, h.width_le, h.height_le, hshows⟩

theorem runs_copyOut {src : List UInt8} {needed : ℕ} (h : needed ≤ src.length) :
    Runs (copyOut src (.ok needed)) (sub src 0 needed) := by
  rw [copyOut]
  split
  · have hslice := @Runs.slice _ src 0 needed (by rwa [Nat.zero_add])
    rwa [Nat.zero_add] at hslice
  · next hzero =>
    rw [Nat.eq_zero_of_not_pos hzero]
    exact .pure _

theorem Shown.row_lt (h : Shown fb g) (hin : rect.Inside g.width g.height) {row : ℕ}
    (hrow : row < rect.height.toNat) :
    rect.y.toNat * (g.width * BYTES_PER_PIXEL) + rect.x.toNat * BYTES_PER_PIXEL +
      row * (g.width * BYTES_PER_PIXEL) + rect.width.toNat * BYTES_PER_PIXEL ≤ fb.pixels.length ∧
    fb.pixels.length < 2 ^ 32 := by
  rw [h.shows.length_eq]
  have hlimit := h.limit
  exact ⟨hin.row_le le_rfl hrow, by omega⟩

/-- A row that is copied from the buffer. -/
theorem presentRow_runs (h : Shown fb g) (hin : rect.Inside g.width g.height) {src pixels : List UInt8}
    (hsrc : rect.needed ≤ src.length) (hpixels : pixels.length = fb.pixels.length) {row : ℕ}
    (hrow : row < rect.height.toNat) :
    Runs (presentRow (g.width * BYTES_PER_PIXEL) (rect.width.toNat * BYTES_PER_PIXEL)
      (rect.y.toNat * (g.width * BYTES_PER_PIXEL) + rect.x.toNat * BYTES_PER_PIXEL)
      (sub src 0 rect.needed) row pixels)
      (copyInto pixels (rect.y.toNat * (g.width * BYTES_PER_PIXEL) + rect.x.toNat * BYTES_PER_PIXEL +
        row * (g.width * BYTES_PER_PIXEL))
        (sub (sub src 0 rect.needed) (row * (rect.width.toNat * BYTES_PER_PIXEL))
          (rect.width.toNat * BYTES_PER_PIXEL))) := by
  obtain ⟨hfits, hlt⟩ := h.row_lt hin hrow
  have hline := Rect.line_le hrow BYTES_PER_PIXEL
  have hneeded := hin.needed_le
  rw [← h.shows.length_eq, rect.needed_eq] at hneeded
  have hbytes : (sub src 0 rect.needed).length = rect.needed := length_sub (by rwa [Nat.zero_add])
  rw [rect.needed_eq] at hbytes
  refine .bind (runs_rowAt (by omega)) (.bind (.mul (by omega)) (.bind (.add (by omega))
    (.bind (.slice ?_) (.bind (.add (by omega)) (.splice ?_ ?_)))))
  · rw [rect.needed_eq]
    omega
  · rw [hpixels]
    exact hfits
  · exact length_line hsrc hrow

theorem present_runs (h : Shown fb g) {src : List UInt8} (hfits : rect.needed < 2 ^ 64) :
    ∃ fb' reply, Runs (present fb rect src) (fb', reply) ∧
      Reply.Alike (.present rect src) reply (g.call (.present rect src)).2 ∧
      Shown fb' (g.call (.present rect src)).1 := by
  by_cases hshort : src.length < rect.needed
  · have hchecked : Runs (checkBuffer rect src.length)
        (.error (badBuffer rect rect.needed src.length)) :=
      runs_checkBuffer.mpr ⟨hfits, (if_pos hshort).symm⟩
    by_cases hin : rect.Inside g.width g.height
    · rw [Grid.call_present_short hin hshort]
      exact ⟨fb, _, hchecked.bind (.bind (.pure []) (.bind (runs_checkRect h hin) (.pure _))),
        .refl _ _, h⟩
    · rw [Grid.call_present_outside hin]
      exact ⟨fb, _, hchecked.bind (.bind (.pure []) (.bind (runs_checkRect_outside h hin) (.pure _))),
        .refl _ _, h⟩
  · have hlong : rect.needed ≤ src.length := Nat.le_of_not_lt hshort
    have hchecked : Runs (checkBuffer rect src.length) (.ok rect.needed) :=
      runs_checkBuffer.mpr ⟨hfits, (if_neg hshort).symm⟩
    by_cases hin : rect.Inside g.width g.height
    · have hheight := hin.2
      have hrows := @Runs.rows (List UInt8) rect.height.toNat _
        (blitRows fb.pixels _ (g.width * BYTES_PER_PIXEL) _) fun row hrow =>
          presentRow_runs h hin hlong (length_blitRows h.shows.length_eq
            (fun i hi => length_line hlong (Nat.lt_trans hi hrow)) (hin.columns _) (by omega)) hrow
      have hblit := h.shows.blit (by decide) hin (fun j hj => length_line hlong hj)
        fun j hj i hi channel hchannel => getElem?_line hlong hj hi hchannel
      rw [Grid.call_present_inside hin hshort]
      exact ⟨_, _, hchecked.bind ((runs_copyOut hlong).bind ((runs_checkRect h hin).bind
        (.bind hrows (.pure _)))), .refl _ _, h.repaint hblit⟩
    · rw [Grid.call_present_outside hin]
      exact ⟨fb, _, hchecked.bind ((runs_copyOut hlong).bind
        (.bind (runs_checkRect_outside h hin) (.pure _))), .refl _ _, h⟩

theorem read_runs (h : Shown fb g) {dst : List UInt8} :
    ∃ fb' reply, Runs (read fb rect dst) (fb', reply) ∧
      Reply.Alike (.read rect dst) reply (g.call (.read rect dst)).2 ∧
      Shown fb' (g.call (.read rect dst)).1 := by
  by_cases hin : rect.Inside g.width g.height
  · have hneeded := hin.needed_le
    have hlimit := h.limit
    have hfits : rect.needed < 2 ^ 64 := by omega
    by_cases hshort : dst.length < rect.needed
    · rw [Grid.call_read_short hin hshort]
      exact ⟨fb, _, (runs_checkRect h hin).bind (.bind
        (runs_checkBuffer.mpr ⟨hfits, (if_pos hshort).symm⟩) (.pure _)), .refl _ _, h⟩
    · have hlength := length_gatherRows h.shows.length_eq (hin.columns BYTES_PER_PIXEL) hin.2
      rw [← rect.needed_eq] at hlength
      have hrows := @Runs.rows (List UInt8) rect.height.toNat
        (readRow fb.pixels (g.width * BYTES_PER_PIXEL) (rect.width.toNat * BYTES_PER_PIXEL)
          (rect.y.toNat * (g.width * BYTES_PER_PIXEL) + rect.x.toNat * BYTES_PER_PIXEL))
        (gatherRows fb.pixels _ (g.width * BYTES_PER_PIXEL) _) fun row hrow => by
          obtain ⟨hrowFits, hlt⟩ := h.row_lt hin hrow
          exact .bind (runs_rowAt (by omega)) (.bind (.add (by omega)) (.bind (.slice hrowFits)
            (.pure _)))
      have hcopied := @runs_copyIn dst _ (hlength ▸ Nat.le_of_not_lt hshort)
      rw [hlength] at hcopied
      rw [Grid.call_read_inside hin hshort]
      refine ⟨fb, _, (runs_checkRect h hin).bind (.bind
        (runs_checkBuffer.mpr ⟨hfits, (if_neg hshort).symm⟩) (.bind (.mul ?_) (.bind hrows
          (hcopied.bind (.pure _))))), alike_read hlength fun i hi => h.shows.gather hin hi, h⟩
      rw [Nat.mul_comm, ← rect.needed_eq]
      omega
  · rw [Grid.call_read_outside hin]
    exact ⟨fb, _, (runs_checkRect_outside h hin).bind (.pure _), .refl _ _, h⟩

theorem fill_eq {color : UInt32} {n : ℕ} {row : List UInt8} (h : row.length = n * BYTES_PER_PIXEL) :
    fill color row = (List.replicate n (toLeBytes color)).flatten := by
  induction n generalizing row with
  | zero =>
    rw [Nat.zero_mul, List.length_eq_zero_iff] at h
    rw [h]
    rfl
  | succ n ih =>
    rw [BYTES_PER_PIXEL] at h ih
    rcases row with - | ⟨a, - | ⟨b, - | ⟨c, - | ⟨d, row⟩⟩⟩⟩
    all_goals simp only [List.length_cons, List.length_nil] at h
    all_goals try omega
    rw [fill, ih (by omega)]
    rfl

theorem clearRow_runs (h : Shown fb g) (hin : rect.Inside g.width g.height) {pixels : List UInt8}
    (hpixels : pixels.length = fb.pixels.length) (color : UInt32) {row : ℕ}
    (hrow : row < rect.height.toNat) :
    Runs (clearRow color (g.width * BYTES_PER_PIXEL) (rect.width.toNat * BYTES_PER_PIXEL)
      (rect.y.toNat * (g.width * BYTES_PER_PIXEL) + rect.x.toNat * BYTES_PER_PIXEL) row pixels)
      (copyInto pixels (rect.y.toNat * (g.width * BYTES_PER_PIXEL) + rect.x.toNat * BYTES_PER_PIXEL +
        row * (g.width * BYTES_PER_PIXEL))
        (List.replicate rect.width.toNat (toLeBytes color)).flatten) := by
  obtain ⟨hfits, hlt⟩ := h.row_lt hin hrow
  rw [← hpixels] at hfits hlt
  refine .bind (runs_rowAt (by omega)) (.bind (.add (by omega)) (.bind (.slice hfits) ?_))
  rw [fill_eq (length_sub hfits)]
  exact .splice hfits (length_flatten_replicate rfl)

theorem clear_runs (h : Shown fb g) {color : UInt32} :
    ∃ fb' reply, Runs (clear fb rect color) (fb', reply) ∧
      Reply.Alike (.clear rect color) reply (g.call (.clear rect color)).2 ∧
      Shown fb' (g.call (.clear rect color)).1 := by
  by_cases hin : rect.Inside g.width g.height
  · have hheight := hin.2
    have hsolid : (List.replicate rect.width.toNat (toLeBytes color)).flatten.length =
        rect.width.toNat * BYTES_PER_PIXEL := length_flatten_replicate rfl
    have hrows := @Runs.rows (List UInt8) rect.height.toNat _
      (blitRows fb.pixels _ (g.width * BYTES_PER_PIXEL) fun _ => _) fun row hrow =>
        clearRow_runs h hin (length_blitRows h.shows.length_eq (fun _ _ => hsolid) (hin.columns _)
          (by omega)) color hrow
    have hblit := h.shows.blit (by decide) hin (fun _ _ => hsolid) fun _ _ i hi channel hchannel =>
      getElem?_solid rfl hi (Nat.lt_succ_of_lt hchannel)
    rw [Grid.call_clear_inside hin]
    exact ⟨_, _, (runs_checkRect h hin).bind (.bind hrows (.pure _)), .refl _ _, h.repaint hblit⟩
  · rw [Grid.call_clear_outside hin]
    exact ⟨fb, _, (runs_checkRect_outside h hin).bind (.pure _), .refl _ _, h⟩

theorem step_runs (h : Shown fb g) {c : Call} (hfits : c.Fits) :
    ∃ fb' reply, Runs (step fb c) (fb', reply) ∧ Reply.Alike c reply (g.call c).2 ∧
      Shown fb' (g.call c).1 := by
  cases c with
  | present dst src => exact present_runs h hfits
  | read src dst => exact read_runs h
  | clear dst color => exact clear_runs h

/-- A call that runs exactly presents a size that is a 64-bit word. -/
theorem fits_of_runs {c : Call} {r : Framebuffer × Reply} (h : Runs (step fb c) r) : c.Fits := by
  cases c with
  | present dst src =>
    obtain ⟨checked, hchecked, -⟩ := runs_bind.mp h
    exact (runs_checkBuffer.mp hchecked).1
  | read src dst => trivial
  | clear dst color => trivial

/-- Calls do what the grid does exactly if every size that is presented is a 64-bit word. -/
theorem faithful_iff (h : Shown fb g) (cs : List Call) :
    Faithful step Shown fb g cs ↔ ∀ c ∈ cs, c.Fits :=
  @Gfx.faithful_iff _ step Shown Call.Fits (fun _ _ _ _ hruns => fits_of_runs hruns.choose_spec)
    (fun _ _ _ hshown hfits => step_runs hshown hfits) _ _ h cs

/-- The geometries that are admitted are small. -/
theorem exists_runs_configure (width height : UInt32) : ∃ r, Runs (configure width height) r := by
  rw [configure]
  split
  · exact ⟨_, .pure _⟩
  · next hadmitted =>
    have hwidth : width.toNat ≤ MAX_DIM := by omega
    have hheight : height.toNat ≤ MAX_DIM := by omega
    have harea := Nat.mul_le_mul hwidth hheight
    change _ ≤ 16777216 at harea
    have hbytes : width.toNat * height.toNat * BYTES_PER_PIXEL < 2 ^ 32 := by
      rw [BYTES_PER_PIXEL]
      omega
    exact ⟨_, .bind (.bind (.mul (by omega)) (.bind (.mul hbytes) (.pure _))) (.pure _)⟩

/-- What `configure` gives is black. -/
theorem configure_shown {width height : UInt32} (h : Runs (configure width height) (.ok fb)) :
    Shown fb ⟨width.toNat, height.toNat, fun _ _ _ => 0⟩ := by
  rw [configure] at h
  split at h
  · exact nomatch runs_pure.mp h
  · next hadmitted =>
    obtain ⟨fb', hfb, h⟩ := runs_bind.mp h
    obtain rfl := Except.ok.inj (runs_pure.mp h)
    obtain ⟨area, harea, hfb⟩ := runs_bind.mp hfb
    obtain ⟨-, rfl⟩ := runs_word.mp harea
    obtain ⟨len, hlen, hfb⟩ := runs_bind.mp hfb
    obtain ⟨-, rfl⟩ := runs_word.mp hlen
    obtain rfl := runs_pure.mp hfb
    have hdims : width.toNat ≤ MAX_DIM ∧ height.toNat ≤ MAX_DIM := by omega
    refine ⟨rfl, rfl, hdims.1, hdims.2, shows_black (by decide) (fun _ _ _ => rfl) ?_⟩
    dsimp only
    rw [Nat.mul_comm width.toNat, Nat.mul_assoc]

end Calls

end Eo9.Gfx.Mem
