import Eo9.Library.Raster
import Eo9.Library.Wrapping

/-!
# The framebuffer interface

`eo9:gfx`: rectangles, calls and errors, and the grid of pixels that a framebuffer stands for.
A pixel of a buffer is four bytes, blue, green, red and one that carries nothing.
-/

namespace Eo9.Gfx

open Eo9.Library

structure Rect where
  x : UInt32
  y : UInt32
  width : UInt32
  height : UInt32

inductive GfxError where
  | outOfBounds
  | badBuffer (message : String)
  | io (message : String)

def badBuffer (rect : Rect) (needed held : ℕ) : GfxError :=
  .badBuffer s!"the rectangle needs {needed} bytes ({rect.width}x{rect.height} xrgb8888), the buffer holds {held}"

inductive Call where
  | present (dst : Rect) (src : List UInt8)
  | read (src : Rect) (dst : List UInt8)
  | clear (dst : Rect) (color : UInt32)

/-- The buffer that a call gives back, and its result. -/
structure Reply where
  buffer : List UInt8
  result : Except GfxError Unit

/-- The end of an interval, if it is a 32-bit word. -/
def checkedAdd (a b : UInt32) : Option ℕ :=
  if a.toNat + b.toNat < 2 ^ 32 then some (a.toNat + b.toNat) else none

def BYTES_PER_PIXEL : ℕ := 4

def toLeBytes (color : UInt32) : List UInt8 :=
  [color.toUInt8, (color >>> 8).toUInt8, (color >>> 16).toUInt8, (color >>> 24).toUInt8]

namespace Rect

def area (rect : Rect) : ℕ := rect.width.toNat * rect.height.toNat

def needed (rect : Rect) : ℕ := rect.area * BYTES_PER_PIXEL

def Inside (rect : Rect) (width height : ℕ) : Prop :=
  rect.x.toNat + rect.width.toNat ≤ width ∧ rect.y.toNat + rect.height.toNat ≤ height

instance (rect : Rect) (width height : ℕ) : Decidable (rect.Inside width height) :=
  inferInstanceAs (Decidable (_ ∧ _))

/-- The column and row lie in it. -/
def Covers (rect : Rect) (x y : ℕ) : Prop :=
  (rect.x.toNat ≤ x ∧ x < rect.x.toNat + rect.width.toNat) ∧
    rect.y.toNat ≤ y ∧ y < rect.y.toNat + rect.height.toNat

instance (rect : Rect) (x y : ℕ) : Decidable (rect.Covers x y) :=
  inferInstanceAs (Decidable (_ ∧ _))

end Rect

/-- The size of what is presented is a 64-bit word. -/
def Call.Fits : Call → Prop
  | .present dst _ => dst.needed < 2 ^ 64
  | _ => True

/-- A grid of pixels, each its blue, green and red. -/
structure Grid where
  width : ℕ
  height : ℕ
  pixel : ℕ → ℕ → ℕ → UInt8

namespace Grid

variable (g : Grid)

/-- The grid with a rectangle painted over, column and row counted from its corner. -/
def paint (rect : Rect) (paint : ℕ → ℕ → ℕ → UInt8) : Grid :=
  { g with
    pixel := fun x y => if rect.Covers x y then paint (x - rect.x.toNat) (y - rect.y.toNat)
      else g.pixel x y }

/-- The pixels of a rectangle as a buffer holds them. -/
def packed (rect : Rect) : List UInt8 :=
  (List.range rect.needed).map fun i =>
    let index := i / BYTES_PER_PIXEL
    let channel := i % BYTES_PER_PIXEL
    if channel = 3 then 0
    else g.pixel (rect.x.toNat + index % rect.width.toNat) (rect.y.toNat + index / rect.width.toNat)
      channel

/-- A call on the grid. A rectangle outside of it comes before a short buffer. -/
def call : Call → Grid × Reply
  | .present dst src =>
    if ¬dst.Inside g.width g.height then (g, ⟨src, .error .outOfBounds⟩)
    else if src.length < dst.needed then (g, ⟨src, .error (badBuffer dst dst.needed src.length)⟩)
    else (g.paint dst fun i j channel =>
      (src[(j * dst.width.toNat + i) * BYTES_PER_PIXEL + channel]?).getD 0, ⟨src, .ok ()⟩)
  | .read src dst =>
    if ¬src.Inside g.width g.height then (g, ⟨dst, .error .outOfBounds⟩)
    else if dst.length < src.needed then (g, ⟨dst, .error (badBuffer src src.needed dst.length)⟩)
    else (g, ⟨g.packed src ++ dst.drop src.needed, .ok ()⟩)
  | .clear dst color =>
    if ¬dst.Inside g.width g.height then (g, ⟨[], .error .outOfBounds⟩)
    else (g.paint dst fun _ _ channel => ((toLeBytes color)[channel]?).getD 0, ⟨[], .ok ()⟩)

section Call

variable {g : Grid} {rect : Rect} {bytes : List UInt8} {color : UInt32}

theorem call_present_outside (hin : ¬rect.Inside g.width g.height) :
    g.call (.present rect bytes) = (g, ⟨bytes, .error .outOfBounds⟩) := if_pos hin

theorem call_present_short (hin : rect.Inside g.width g.height) (hshort : bytes.length < rect.needed) :
    g.call (.present rect bytes) =
      (g, ⟨bytes, .error (badBuffer rect rect.needed bytes.length)⟩) :=
  (if_neg (not_not_intro hin)).trans (if_pos hshort)

theorem call_present_inside (hin : rect.Inside g.width g.height)
    (hlong : ¬bytes.length < rect.needed) :
    g.call (.present rect bytes) = (g.paint rect fun i j channel =>
      (bytes[(j * rect.width.toNat + i) * BYTES_PER_PIXEL + channel]?).getD 0, ⟨bytes, .ok ()⟩) :=
  (if_neg (not_not_intro hin)).trans (if_neg hlong)

theorem call_read_outside (hin : ¬rect.Inside g.width g.height) :
    g.call (.read rect bytes) = (g, ⟨bytes, .error .outOfBounds⟩) := if_pos hin

theorem call_read_short (hin : rect.Inside g.width g.height) (hshort : bytes.length < rect.needed) :
    g.call (.read rect bytes) = (g, ⟨bytes, .error (badBuffer rect rect.needed bytes.length)⟩) :=
  (if_neg (not_not_intro hin)).trans (if_pos hshort)

theorem call_read_inside (hin : rect.Inside g.width g.height) (hlong : ¬bytes.length < rect.needed) :
    g.call (.read rect bytes) = (g, ⟨g.packed rect ++ bytes.drop rect.needed, .ok ()⟩) :=
  (if_neg (not_not_intro hin)).trans (if_neg hlong)

theorem call_clear_outside (hin : ¬rect.Inside g.width g.height) :
    g.call (.clear rect color) = (g, ⟨[], .error .outOfBounds⟩) := if_pos hin

theorem call_clear_inside (hin : rect.Inside g.width g.height) :
    g.call (.clear rect color) = (g.paint rect fun _ _ channel =>
      ((toLeBytes color)[channel]?).getD 0, ⟨[], .ok ()⟩) := if_neg (not_not_intro hin)

end Call

/-- Calls one after another, with their replies. -/
def calls : Grid → List Call → Grid × List Reply
  | g, [] => (g, [])
  | g, c :: cs => ((calls (g.call c).1 cs).1, (g.call c).2 :: (calls (g.call c).1 cs).2)

end Grid

/-- Replies that are the same but for what the fourth byte of a pixel holds. -/
def Reply.Alike (c : Call) (reply reply' : Reply) : Prop :=
  reply.result = reply'.result ∧ reply.buffer.length = reply'.buffer.length ∧
    match c with
    | .read src _ => ∀ i, src.needed ≤ i ∨ i % BYTES_PER_PIXEL ≠ 3 →
        reply.buffer[i]? = reply'.buffer[i]?
    | _ => reply.buffer = reply'.buffer

theorem Reply.Alike.refl (c : Call) (reply : Reply) : Reply.Alike c reply reply := by
  refine ⟨rfl, rfl, ?_⟩
  cases c with
  | present dst src => rfl
  | read src dst => exact fun _ _ => rfl
  | clear dst color => rfl

/-- The check that a rectangle ends inside a surface. -/
def endsFit (rect : Rect) (width height : UInt32) : Bool :=
  match checkedAdd rect.x rect.width, checkedAdd rect.y rect.height with
  | some endX, some endY => !(decide (width.toNat < endX) || decide (height.toNat < endY))
  | _, _ => false

def rowAt (bits start stride row : ℕ) : Wrapping ℕ := do
  let above ← .mul bits row stride
  .add bits start above

/-- The check that a buffer holds the pixels of a rectangle. -/
def checkBuffer (rect : Rect) (bufferLen : ℕ) : Wrapping (Except GfxError ℕ) := do
  let area ← .mul 64 rect.width.toNat rect.height.toNat
  let needed ← .mul 64 area BYTES_PER_PIXEL
  if bufferLen < needed then pure (.error (badBuffer rect needed bufferLen)) else pure (.ok needed)

/-- The bytes that were read are put at the start of the buffer. -/
def copyIn (dst bytes : List UInt8) : Wrapping (List UInt8) :=
  if bytes = [] then pure dst else .splice dst 0 bytes.length bytes

theorem endsFit_iff {rect : Rect} {width height : UInt32} :
    endsFit rect width height = true ↔ rect.Inside width.toNat height.toNat := by
  have hwidth := width.toNat_lt
  have hheight := height.toNat_lt
  rw [endsFit, checkedAdd, checkedAdd, Rect.Inside]
  by_cases hx : rect.x.toNat + rect.width.toNat < 2 ^ 32
  · by_cases hy : rect.y.toNat + rect.height.toNat < 2 ^ 32
    · simp only [if_pos hx, if_pos hy]
      simp
    · simp only [if_pos hx, if_neg hy]
      refine ⟨nofun, fun h => absurd h.2 ?_⟩
      omega
  · simp only [if_neg hx]
    refine ⟨nofun, fun h => absurd h.1 ?_⟩
    omega

theorem area_lt (rect : Rect) : rect.area < 2 ^ 64 := by
  have hwidth := rect.width.toNat_lt
  have hheight := rect.height.toNat_lt
  calc rect.area
    _ < 2 ^ 32 * 2 ^ 32 := Nat.mul_lt_mul'' hwidth hheight
    _ = 2 ^ 64 := rfl

/-- The size of a rectangle's pixels is computed exactly if it is a 64-bit word. -/
theorem runs_checkBuffer {rect : Rect} {bufferLen : ℕ} {checked : Except GfxError ℕ} :
    Wrapping.Runs (checkBuffer rect bufferLen) checked ↔ rect.needed < 2 ^ 64 ∧
      checked = if bufferLen < rect.needed then .error (badBuffer rect rect.needed bufferLen)
        else .ok rect.needed := by
  have hthen (needed : ℕ) : Wrapping.Runs (if bufferLen < needed then
      pure (.error (badBuffer rect needed bufferLen)) else pure (.ok needed)) checked ↔
        checked = if bufferLen < needed then .error (badBuffer rect needed bufferLen)
          else .ok needed := by
    split
    · exact Wrapping.runs_pure.trans eq_comm
    · exact Wrapping.runs_pure.trans eq_comm
  rw [checkBuffer, Wrapping.runs_bind]
  constructor
  · rintro ⟨area, harea, h⟩
    obtain ⟨-, rfl⟩ := Wrapping.runs_word.mp harea
    obtain ⟨needed, hneeded, h⟩ := Wrapping.runs_bind.mp h
    obtain ⟨hlt, rfl⟩ := Wrapping.runs_word.mp hneeded
    exact ⟨hlt, (hthen _).mp h⟩
  · rintro ⟨hlt, h⟩
    exact ⟨_, .mul (area_lt rect), .bind (.mul hlt) ((hthen _).mpr h)⟩

theorem runs_rowAt {bits start stride row : ℕ} (h : start + row * stride < 2 ^ bits) :
    Wrapping.Runs (rowAt bits start stride row) (start + row * stride) :=
  .bind (.mul (Nat.lt_of_le_of_lt (Nat.le_add_left _ _) h)) (.add h)

theorem runs_copyIn {dst bytes : List UInt8} (h : bytes.length ≤ dst.length) :
    Wrapping.Runs (copyIn dst bytes) (bytes ++ dst.drop bytes.length) := by
  have hcopy : copyInto dst 0 bytes = bytes ++ dst.drop bytes.length := by
    rw [copyInto, List.take_zero, List.nil_append, Nat.zero_add]
  rw [copyIn]
  split
  · next hnil =>
    rw [hnil]
    exact .pure _
  · have hsplice := @Wrapping.Runs.splice _ dst bytes 0 bytes.length (by rwa [Nat.zero_add]) rfl
    rwa [Nat.zero_add, hcopy] at hsplice

section Bounds

variable {rect : Rect} {width height : ℕ}

theorem Rect.Inside.columns (h : rect.Inside width height) (bpp : ℕ) :
    rect.x.toNat * bpp + rect.width.toNat * bpp ≤ width * bpp := by
  rw [← Nat.add_mul]
  exact Nat.mul_le_mul_right bpp h.1

theorem Rect.Inside.start_le (h : rect.Inside width height) (stride bpp : ℕ) :
    rect.y.toNat * stride + rect.x.toNat * bpp ≤ height * stride + width * bpp := by
  have hy : rect.y.toNat ≤ height := Nat.le_of_add_right_le h.2
  have hx : rect.x.toNat ≤ width := Nat.le_of_add_right_le h.1
  exact Nat.add_le_add (Nat.mul_le_mul_right _ hy) (Nat.mul_le_mul_right _ hx)

/-- A row of the rectangle lies in the buffer. -/
theorem Rect.Inside.row_le (h : rect.Inside width height) {stride bpp row : ℕ}
    (hstride : width * bpp ≤ stride) (hrow : row < rect.height.toNat) :
    rect.y.toNat * stride + rect.x.toNat * bpp + row * stride + rect.width.toNat * bpp ≤
      height * stride :=
  row_fits (Nat.le_trans (h.columns bpp) hstride) (Nat.lt_of_lt_of_le (Nat.add_lt_add_left hrow _) h.2)

theorem Rect.Inside.needed_le (h : rect.Inside width height) :
    rect.needed ≤ height * (width * BYTES_PER_PIXEL) := by
  have hx : rect.width.toNat ≤ width := Nat.le_of_add_left_le h.1
  have hy : rect.height.toNat ≤ height := Nat.le_of_add_left_le h.2
  calc rect.needed
    _ ≤ width * height * BYTES_PER_PIXEL := Nat.mul_le_mul_right _ (Nat.mul_le_mul hx hy)
    _ = height * (width * BYTES_PER_PIXEL) := by rw [Nat.mul_comm width height, Nat.mul_assoc]

theorem Rect.needed_eq (rect : Rect) :
    rect.needed = rect.height.toNat * (rect.width.toNat * BYTES_PER_PIXEL) := by
  rw [Rect.needed, Rect.area, Nat.mul_comm rect.width.toNat, Nat.mul_assoc]

/-- A row of the packed pixels lies in them. -/
theorem Rect.line_le {row : ℕ} (hrow : row < rect.height.toNat) (bpp : ℕ) :
    row * (rect.width.toNat * bpp) + rect.width.toNat * bpp ≤
      rect.height.toNat * (rect.width.toNat * bpp) := by
  rw [← Nat.succ_mul]
  exact Nat.mul_le_mul_right _ hrow

end Bounds

/-- The first three bytes of every pixel in memory are those of the grid. -/
structure Shows (bpp : ℕ) (mem : List UInt8) (g : Grid) : Prop where
  length_eq : mem.length = g.height * (g.width * bpp)
  pixel : ∀ x < g.width, ∀ y < g.height, ∀ channel < 3,
    mem[y * (g.width * bpp) + (x * bpp + channel)]? = some (g.pixel x y channel)

theorem le_pixel_iff {a x bpp channel : ℕ} (h : channel < bpp) :
    a * bpp ≤ x * bpp + channel ↔ a ≤ x := by
  constructor
  · intro hle
    by_contra hlt
    have hnext := Nat.mul_le_mul_right bpp (Nat.lt_of_not_le hlt)
    rw [Nat.succ_mul] at hnext
    omega
  · intro hle
    exact Nat.le_add_right_of_le (Nat.mul_le_mul_right bpp hle)

section Blits

variable {bpp : ℕ} {mem : List UInt8} {g : Grid} {rect : Rect} {lines : ℕ → List UInt8}
  {new : ℕ → ℕ → ℕ → UInt8}

theorem pixel_lt {x channel : ℕ} (hbpp : 3 ≤ bpp) (hx : x < g.width) (hchannel : channel < 3) :
    x * bpp + channel < g.width * bpp := by
  have hnext := Nat.mul_le_mul_right bpp hx
  rw [Nat.succ_mul] at hnext
  omega

/-- A pixel's place is in memory. -/
theorem place_lt {x y channel : ℕ} (hbpp : 3 ≤ bpp) (hx : x < g.width) (hy : y < g.height)
    (hchannel : channel < 3) :
    y * (g.width * bpp) + (x * bpp + channel) < g.height * (g.width * bpp) := by
  have hcolumn := pixel_lt hbpp hx hchannel
  have hrows := Nat.mul_le_mul_right (g.width * bpp) hy
  rw [Nat.succ_mul] at hrows
  omega

theorem shows_black {n : ℕ} (hbpp : 3 ≤ bpp) (hblack : ∀ x y channel, g.pixel x y channel = 0)
    (hn : n = g.height * (g.width * bpp)) : Shows bpp (List.replicate n 0) g where
  length_eq := by rw [List.length_replicate, hn]
  pixel := by
    intro x hx y hy channel hchannel
    rw [hblack, List.getElem?_replicate, if_pos (hn ▸ place_lt hbpp hx hy hchannel)]

/-- Lines put over a rectangle paint it. -/
theorem Shows.blit (h : Shows bpp mem g) (hbpp : 3 ≤ bpp) (hin : rect.Inside g.width g.height)
    (hlines : ∀ j < rect.height.toNat, (lines j).length = rect.width.toNat * bpp)
    (hnew : ∀ j < rect.height.toNat, ∀ i < rect.width.toNat, ∀ channel < 3,
      (lines j)[i * bpp + channel]? = some (new i j channel)) :
    Shows bpp (blitRows mem (rect.y.toNat * (g.width * bpp) + rect.x.toNat * bpp) (g.width * bpp) lines
      rect.height.toNat) (g.paint rect new) where
  length_eq := by
    rw [length_blitRows h.length_eq hlines (hin.columns bpp) hin.2]
    exact h.length_eq
  pixel := by
    intro x hx y hy channel hchannel
    have hc : channel < bpp := Nat.lt_of_lt_of_le hchannel hbpp
    have hcovers : (rect.y.toNat ≤ y ∧ y < rect.y.toNat + rect.height.toNat ∧
        rect.x.toNat * bpp ≤ x * bpp + channel ∧
        x * bpp + channel < rect.x.toNat * bpp + rect.width.toNat * bpp) ↔ rect.Covers x y := by
      rw [← Nat.add_mul, ← Nat.not_le, ← Nat.not_le, le_pixel_iff hc, le_pixel_iff hc, Rect.Covers]
      omega
    have hplace := getElem?_blitRows h.length_eq hlines (hin.columns bpp) hin.2 (y := y)
      (pixel_lt hbpp hx hchannel)
    rw [Grid.paint]
    dsimp only
    rw [hplace]
    by_cases hin' : rect.Covers x y
    · have hcolumn : x * bpp + channel - rect.x.toNat * bpp = (x - rect.x.toNat) * bpp + channel := by
        have hle := Nat.mul_le_mul_right bpp hin'.1.1
        rw [Nat.sub_mul]
        omega
      have ⟨⟨hx0, hx1⟩, hy0, hy1⟩ := hin'
      rw [if_pos (hcovers.mpr hin'), if_pos hin', hcolumn]
      exact hnew _ (by omega) _ (by omega) _ hchannel
    · rw [if_neg (mt hcovers.mp hin'), if_neg hin']
      exact h.pixel x hx y hy channel hchannel

end Blits

section Packed

variable {g : Grid} {rect : Rect} {bytes : List UInt8}

theorem length_packed : (g.packed rect).length = rect.needed := by
  rw [Grid.packed, List.length_map, List.length_range]

/-- A pixel's place among those of the rectangle. -/
theorem index_lt {j k : ℕ} (hj : j < rect.height.toNat) (hk : k < rect.width.toNat) :
    j * rect.width.toNat + k < rect.area := by
  have hrows := Nat.mul_le_mul_right rect.width.toNat hj
  rw [Nat.succ_mul] at hrows
  rw [Rect.area, Nat.mul_comm rect.width.toNat]
  omega

theorem getElem?_packed {j k channel : ℕ} (hj : j < rect.height.toNat) (hk : k < rect.width.toNat)
    (hchannel : channel < 3) :
    (g.packed rect)[(j * rect.width.toNat + k) * BYTES_PER_PIXEL + channel]? =
      some (g.pixel (rect.x.toNat + k) (rect.y.toNat + j) channel) := by
  have hindex := index_lt hj hk
  have hcolumn : (j * rect.width.toNat + k) % rect.width.toNat = k := by
    rw [Nat.mul_add_mod', Nat.mod_eq_of_lt hk]
  have hrow : (j * rect.width.toNat + k) / rect.width.toNat = j := by
    rw [Nat.add_comm, Nat.add_mul_div_right _ _ (Nat.zero_lt_of_lt hk), Nat.div_eq_of_lt hk,
      Nat.zero_add]
  have hlt : (j * rect.width.toNat + k) * BYTES_PER_PIXEL + channel < rect.needed := by
    rw [Rect.needed, BYTES_PER_PIXEL]
    omega
  have hdiv : ((j * rect.width.toNat + k) * BYTES_PER_PIXEL + channel) / BYTES_PER_PIXEL =
      j * rect.width.toNat + k := by
    rw [BYTES_PER_PIXEL]
    omega
  have hmod : ((j * rect.width.toNat + k) * BYTES_PER_PIXEL + channel) % BYTES_PER_PIXEL =
      channel := by
    rw [BYTES_PER_PIXEL]
    omega
  rw [Grid.packed, List.getElem?_map, List.getElem?_range hlt, Option.map_some]
  dsimp only
  rw [hdiv, hmod, hcolumn, hrow, if_neg (Nat.ne_of_lt hchannel)]

/-- Every byte of packed pixels that carries something. -/
theorem exists_pixel {i : ℕ} (hi : i < rect.needed) (hchannel : i % BYTES_PER_PIXEL ≠ 3) :
    ∃ j < rect.height.toNat, ∃ k < rect.width.toNat, ∃ channel < 3,
      i = (j * rect.width.toNat + k) * BYTES_PER_PIXEL + channel := by
  rw [Rect.needed, BYTES_PER_PIXEL] at hi
  rw [BYTES_PER_PIXEL] at hchannel
  have hindex : i / 4 < rect.width.toNat * rect.height.toNat := by
    rw [← Rect.area]
    omega
  have hwidth : 0 < rect.width.toNat := Nat.pos_of_mul_pos_right (Nat.zero_lt_of_lt hindex)
  refine ⟨i / 4 / rect.width.toNat, Nat.div_lt_of_lt_mul hindex, i / 4 % rect.width.toNat,
    Nat.mod_lt _ hwidth, i % 4, by omega, ?_⟩
  rw [Nat.mul_comm (i / 4 / _), Nat.div_add_mod, BYTES_PER_PIXEL]
  omega

/-- Bytes that show the pixels of a rectangle are its packed pixels. -/
theorem packed_alike (hlength : bytes.length = rect.needed)
    (h : ∀ j < rect.height.toNat, ∀ k < rect.width.toNat, ∀ channel < 3,
      bytes[j * (rect.width.toNat * BYTES_PER_PIXEL) + (k * BYTES_PER_PIXEL + channel)]? =
        some (g.pixel (rect.x.toNat + k) (rect.y.toNat + j) channel))
    {i : ℕ} (hi : i % BYTES_PER_PIXEL ≠ 3) : bytes[i]? = (g.packed rect)[i]? := by
  rcases Nat.lt_or_ge i rect.needed with hlt | hge
  · obtain ⟨j, hj, k, hk, channel, hchannel, rfl⟩ := exists_pixel hlt hi
    rw [getElem?_packed hj hk hchannel, ← h j hj k hk channel hchannel, Nat.add_mul, Nat.mul_assoc,
      Nat.add_assoc]
  · rw [List.getElem?_eq_none (hlength ▸ hge), List.getElem?_eq_none (length_packed ▸ hge)]

/-- Rows that are gathered are the pixels of a rectangle. -/
theorem Shows.gather {mem : List UInt8} (h : Shows BYTES_PER_PIXEL mem g)
    (hin : rect.Inside g.width g.height) {i : ℕ} (hi : i % BYTES_PER_PIXEL ≠ 3) :
    (gatherRows mem (rect.y.toNat * (g.width * BYTES_PER_PIXEL) + rect.x.toNat * BYTES_PER_PIXEL)
      (g.width * BYTES_PER_PIXEL) (rect.width.toNat * BYTES_PER_PIXEL) rect.height.toNat)[i]? =
        (g.packed rect)[i]? := by
  have hcolumns := hin.columns BYTES_PER_PIXEL
  refine packed_alike ?_ ?_ hi
  · rw [length_gatherRows h.length_eq hcolumns hin.2, rect.needed_eq]
  · intro j hj k hk channel hchannel
    have hx : rect.x.toNat + k < g.width := Nat.lt_of_lt_of_le (Nat.add_lt_add_left hk _) hin.1
    have hy : rect.y.toNat + j < g.height := Nat.lt_of_lt_of_le (Nat.add_lt_add_left hj _) hin.2
    have hplace : k * BYTES_PER_PIXEL + channel < rect.width.toNat * BYTES_PER_PIXEL := by
      have hnext := Nat.mul_le_mul_right BYTES_PER_PIXEL hk
      rw [Nat.succ_mul] at hnext
      change _ + 4 ≤ _ at hnext
      omega
    have hpixel := h.pixel _ hx _ hy _ hchannel
    rw [Nat.add_mul rect.x.toNat, Nat.add_assoc (rect.x.toNat * _)] at hpixel
    rw [getElem?_gatherRows h.length_eq hcolumns hin.2 hj hplace]
    exact hpixel

/-- What was read stands before the rest of the buffer. -/
theorem alike_read {dst out : List UInt8} (hlength : out.length = rect.needed)
    (h : ∀ i, i % BYTES_PER_PIXEL ≠ 3 → out[i]? = (g.packed rect)[i]?) :
    Reply.Alike (.read rect dst) ⟨out ++ dst.drop rect.needed, .ok ()⟩
      ⟨g.packed rect ++ dst.drop rect.needed, .ok ()⟩ := by
  refine ⟨rfl, ?_, fun i hi => ?_⟩
  · rw [List.length_append, List.length_append, hlength, length_packed]
  · dsimp only
    rcases Nat.lt_or_ge i rect.needed with hlt | hge
    · rw [List.getElem?_append_left (hlength ▸ hlt), List.getElem?_append_left (length_packed ▸ hlt)]
      exact h i (hi.resolve_left (Nat.not_le_of_lt hlt))
    · rw [List.getElem?_append_right (hlength ▸ hge), List.getElem?_append_right (length_packed ▸ hge),
        hlength, length_packed]

/-- A row of the pixels that a buffer holds. -/
theorem getElem?_line {src : List UInt8} (hsrc : rect.needed ≤ src.length) {j i channel : ℕ}
    (hj : j < rect.height.toNat) (hi : i < rect.width.toNat) (hchannel : channel < 3) :
    (sub (sub src 0 rect.needed) (j * (rect.width.toNat * BYTES_PER_PIXEL))
      (rect.width.toNat * BYTES_PER_PIXEL))[i * BYTES_PER_PIXEL + channel]? =
      some ((src[(j * rect.width.toNat + i) * BYTES_PER_PIXEL + channel]?).getD 0) := by
  have hindex := index_lt hj hi
  have hlt : (j * rect.width.toNat + i) * BYTES_PER_PIXEL + channel < rect.needed := by
    rw [Rect.needed, BYTES_PER_PIXEL]
    omega
  have hcolumn : i * BYTES_PER_PIXEL + channel < rect.width.toNat * BYTES_PER_PIXEL := by
    rw [BYTES_PER_PIXEL]
    omega
  have hplace : j * (rect.width.toNat * BYTES_PER_PIXEL) + (i * BYTES_PER_PIXEL + channel) =
      (j * rect.width.toNat + i) * BYTES_PER_PIXEL + channel := by
    rw [Nat.add_mul, Nat.mul_assoc, Nat.add_assoc]
  rw [getElem?_sub, if_pos hcolumn, getElem?_sub, hplace, if_pos hlt, Nat.zero_add]
  exact getElem?_eq_some_getD (Nat.lt_of_lt_of_le hlt hsrc) 0

theorem length_line {src : List UInt8} (hsrc : rect.needed ≤ src.length) {j : ℕ}
    (hj : j < rect.height.toNat) :
    (sub (sub src 0 rect.needed) (j * (rect.width.toNat * BYTES_PER_PIXEL))
      (rect.width.toNat * BYTES_PER_PIXEL)).length = rect.width.toNat * BYTES_PER_PIXEL := by
  apply length_sub
  rw [length_sub (by rwa [Nat.zero_add]), rect.needed_eq]
  exact Rect.line_le hj _

/-- A rectangle without pixels paints nothing. -/
theorem paint_empty (h : rect.width = 0 ∨ rect.height = 0) (new : ℕ → ℕ → ℕ → UInt8) :
    g.paint rect new = g := by
  have hcovers (x y : ℕ) : ¬rect.Covers x y := by
    rintro ⟨hx, hy⟩
    rcases h with hzero | hzero
    · rw [hzero] at hx
      exact absurd hx.2 (Nat.not_lt_of_le hx.1)
    · rw [hzero] at hy
      exact absurd hy.2 (Nat.not_lt_of_le hy.1)
  have hpixel : (fun x y => if rect.Covers x y then new (x - rect.x.toNat) (y - rect.y.toNat)
      else g.pixel x y) = g.pixel := by
    funext x y
    exact if_neg (hcovers x y)
  rw [Grid.paint, hpixel]

/-- A row of one color. -/
theorem getElem?_solid {pattern : List UInt8} {bpp : ℕ} (hpattern : pattern.length = bpp) {n i channel : ℕ}
    (hi : i < n) (hchannel : channel < bpp) :
    (List.replicate n pattern).flatten[i * bpp + channel]? = some ((pattern[channel]?).getD 0) := by
  rw [getElem?_flatten_replicate hpattern hi hchannel]
  exact getElem?_eq_some_getD (hpattern ▸ hchannel) 0

end Packed

/-- Calls of a provider one after another. -/
def run {σ : Type} (step : σ → Call → Wrapping (σ × Reply)) : σ → List Call → Wrapping (σ × List Reply)
  | s, [] => pure (s, [])
  | s, c :: cs => do
      let (s, reply) ← step s c
      let (s, replies) ← run step s cs
      pure (s, reply :: replies)

/-- Every reply is that of the grid. -/
def AlikeAll : Grid → List Call → List Reply → Prop
  | _, [], replies => replies = []
  | g, c :: cs, replies =>
    ∃ reply rest, replies = reply :: rest ∧ Reply.Alike c reply (g.call c).2 ∧
      AlikeAll (g.call c).1 cs rest

/-- Nothing wraps and nothing traps, the replies are those of the grid, and in the end memory shows
it. -/
def Faithful {σ : Type} (step : σ → Call → Wrapping (σ × Reply)) (shown : σ → Grid → Prop) (s : σ)
    (g : Grid) (cs : List Call) : Prop :=
  ∃ s' replies, Wrapping.Runs (run step s cs) (s', replies) ∧ AlikeAll g cs replies ∧
    shown s' (g.calls cs).1

section Providers

variable {σ : Type} {step : σ → Call → Wrapping (σ × Reply)} {shown : σ → Grid → Prop}
  {fits : Call → Prop}

/-- A provider whose every call runs exactly if it fits, and then does what the grid does. -/
theorem faithful_iff
    (hexact : ∀ s g c, shown s g → (∃ r, Wrapping.Runs (step s c) r) → fits c)
    (hstep : ∀ s g c, shown s g → fits c → ∃ s' reply, Wrapping.Runs (step s c) (s', reply) ∧
      Reply.Alike c reply (g.call c).2 ∧ shown s' (g.call c).1)
    {s : σ} {g : Grid} (h : shown s g) (cs : List Call) :
    Faithful step shown s g cs ↔ ∀ c ∈ cs, fits c := by
  induction cs generalizing s g with
  | nil =>
    refine ⟨fun _ => nofun, fun _ => ⟨s, [], rfl, rfl, h⟩⟩
  | cons c cs ih =>
    rw [List.forall_mem_cons]
    constructor
    · rintro ⟨s', replies, hruns, halike, hlast⟩
      obtain ⟨⟨s₁, reply⟩, hfirst, hruns⟩ := Wrapping.runs_bind.mp hruns
      obtain ⟨⟨s₂, rest⟩, hrest, hruns⟩ := Wrapping.runs_bind.mp hruns
      obtain ⟨rfl, rfl⟩ := Prod.mk.inj (Wrapping.runs_pure.mp hruns)
      have hfits := hexact s g c h ⟨_, hfirst⟩
      obtain ⟨s₁', reply', hfirst', -, hshown⟩ := hstep s g c h hfits
      obtain ⟨rfl, rfl⟩ := Prod.mk.inj (hfirst.unique hfirst')
      obtain ⟨_, _, hsplit, -, halike⟩ := halike
      obtain ⟨-, rfl⟩ := List.cons.inj hsplit
      exact ⟨hfits, (ih hshown).mp ⟨s₂, rest, hrest, halike, hlast⟩⟩
    · rintro ⟨hfits, hcs⟩
      obtain ⟨s₁, reply, hfirst, hreply, hshown⟩ := hstep s g c h hfits
      obtain ⟨s', rest, hrest, halike, hlast⟩ := (ih hshown).mpr hcs
      refine ⟨s', reply :: rest, ?_, ⟨reply, rest, rfl, hreply, halike⟩, hlast⟩
      exact hfirst.bind (hrest.bind (Wrapping.Runs.pure _))

end Providers

end Eo9.Gfx
