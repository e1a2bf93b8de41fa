import Eo9.Library.Canonical

/-!
# The canonical ABI: lowering into an instance

A value is stored in the memory of an instance; the room for strings and lists comes from the
instance's own allocator. When the allocator only moves up, a store changes its own slot and
bytes the allocator had not given out before, and no other.
-/

namespace Eo9.Library.Canonical

open Wasm (Memory Value)

/-- What lowering uses of the instance it lowers into: its memory, its allocator, called with
an alignment and a size, and the trap when the room given is misaligned or out of bounds. -/
structure Access (σ ε : Type) where
  memory : σ → Memory
  write : ℕ → List UInt8 → σ → σ
  realloc : ℕ → ℕ → σ → Except ε (ℕ × σ)
  fault : ε

variable {σ ε : Type}

namespace Access

/-- Ask for room and check what is given. -/
def room (a : Access σ ε) (alignment size : ℕ) (s : σ) : Except ε (ℕ × σ) :=
  match a.realloc alignment size s with
  | .ok (q, s') =>
    if alignment ∣ q ∧ q + size ≤ (a.memory s').size then .ok (q, s') else .error a.fault
  | .error e => .error e

/-- Write the address and the length of a string or a list. -/
def writePair (a : Access σ ε) (p q length : ℕ) (s : σ) : σ :=
  a.write (p + 4) (leBytes 4 length) (a.write p (leBytes 4 q) s)

/-- Store items, one behind the other. -/
def storeItems (item : Val → ℕ → σ → Except ε σ) (stride : ℕ) :
    List Val → ℕ → σ → Except ε σ
  | [], _, s => .ok s
  | v :: vs, p, s =>
    match item v p s with
    | .ok s' => storeItems item stride vs (p + stride) s'
    | .error e => .error e

mutual

/-- Store a value at an address. -/
def store (a : Access σ ε) : Ty → Val → ℕ → σ → Except ε σ
  | .scalar kind, .scalar n, p, s => .ok (a.write p (leBytes kind.width n) s)
  | .string, .string bytes, p, s =>
    match a.room 1 bytes.length s with
    | .ok (q, s') => .ok (a.writePair p q bytes.length (a.write q bytes s'))
    | .error e => .error e
  | .list element, .list items, p, s =>
    match a.room element.alignment (items.length * element.size) s with
    | .ok (q, s') =>
      match storeItems (store a element) element.size items q s' with
      | .ok s'' => .ok (a.writePair p q items.length s'')
      | .error e => .error e
    | .error e => .error e
  | .record fields, .record values, p, s => storeFields a fields values p 0 s
  | .variant cases, .variant i payload, p, s =>
    storeCase a cases i payload (p + Ty.payloadOffset cases)
      (a.write p (leBytes (discriminantWidth cases.length) i) s)
  | _, _, _, _ => .error a.fault

/-- Store the fields of a record at `p` that are laid out from `o` on. -/
def storeFields (a : Access σ ε) : List Ty → List Val → ℕ → ℕ → σ → Except ε σ
  | [], [], _, _, s => .ok s
  | t :: ts, v :: vs, p, o, s =>
    match store a t v (p + alignTo o t.alignment) s with
    | .ok s' => storeFields a ts vs p (alignTo o t.alignment + t.size) s'
    | .error e => .error e
  | _, _, _, _, _ => .error a.fault

def storeCase (a : Access σ ε) : List Ty → ℕ → Val → ℕ → σ → Except ε σ
  | [], _, _, _, _ => .error a.fault
  | t :: _, 0, v, p, s => store a t v p s
  | _ :: ts, i + 1, v, p, s => storeCase a ts i v p s

end

end Access

/-- The core value of a scalar; signed numbers are extended by their sign. -/
def Scalar.toCore : Scalar → ℕ → Value
  | s8, n => .i32 ((BitVec.ofNat 8 n).signExtend 32)
  | s16, n => .i32 ((BitVec.ofNat 16 n).signExtend 32)
  | kind, n => ofBits kind.core n

mutual

/-- The core values of a value whose type flattens to at most one. -/
def lowerOne : Ty → Val → List Value
  | .scalar kind, .scalar n => [kind.toCore n]
  | .record fields, .record values => lowerOneAll fields values
  | .variant _, .variant i _ => [.i32 (BitVec.ofNat 32 i)]
  | _, _ => []

def lowerOneAll : List Ty → List Val → List Value
  | t :: ts, v :: vs => lowerOne t v ++ lowerOneAll ts vs
  | _, _ => []

end

mutual

theorem length_lowerOne : ∀ (t : Ty) (v : Val), Typed t v → t.flatten.length ≤ 1 →
    (lowerOne t v).length = t.flatten.length
  | .scalar kind, v, hv, _ => by
    cases v with
    | scalar n => simp [lowerOne, Ty.flatten]
    | _ => exact hv.elim
  | .string, _, _, h => by simp [Ty.flatten] at h
  | .list _, _, _, h => by simp [Ty.flatten] at h
  | .record fields, v, hv, h => by
    cases v with
    | record values => exact length_lowerOneAll fields values hv h
    | _ => exact hv.elim
  | .variant cases, v, hv, h => by
    cases v with
    | variant i payload =>
      have hcases : (Ty.flattenCases cases).length = 0 := by
        simp only [Ty.flatten, List.length_cons] at h
        omega
      simp [lowerOne, Ty.flatten, hcases]
    | _ => exact hv.elim

theorem length_lowerOneAll : ∀ (ts : List Ty) (vs : List Val), TypedAll ts vs →
    (Ty.flattenAll ts).length ≤ 1 → (lowerOneAll ts vs).length = (Ty.flattenAll ts).length
  | [], vs, hv, _ => by
    cases vs with
    | nil => rfl
    | cons v vs => exact hv.elim
  | t :: ts, vs, hv, h => by
    cases vs with
    | nil => exact hv.elim
    | cons v vs =>
      simp only [Ty.flattenAll, List.length_append] at h
      have hhead := length_lowerOne t v hv.1 (by omega)
      have htail := length_lowerOneAll ts vs hv.2 (by omega)
      simp [lowerOneAll, Ty.flattenAll, hhead, htail]

end

/-- Values whose first byte in memory is zero whatever the addresses in them are. -/
def LeadsWithZero : Ty → Val → Prop
  | .scalar _, .scalar n => n % 256 = 0
  | .record (t :: _), .record (v :: _) => LeadsWithZero t v
  | .variant _, .variant i _ => i % 256 = 0
  | _, _ => False

/-- The allocator moves up: `floor` bounds what it has given out, and everything the instance
keeps for itself, as long as the instance is as `inv` says. -/
structure Bumping (a : Access σ ε) (inv : σ → Prop) (floor : σ → ℕ) : Prop where
  write_bytes : ∀ p data s, (a.memory (a.write p data s)).bytes =
    overwrite (a.memory s).bytes p data
  write_size : ∀ p data s, (a.memory (a.write p data s)).size = (a.memory s).size
  write_floor : ∀ p data s, floor (a.write p data s) = floor s
  write_inv : ∀ p data s, inv s → inv (a.write p data s)
  room : ∀ {alignment size s q s'}, IsAlignment alignment → inv s →
    a.room alignment size s = .ok (q, s') → inv s' ∧ floor s ≤ q ∧ q + size ≤ floor s' ∧
      q + size ≤ (a.memory s').size ∧ (a.memory s).size ≤ (a.memory s').size ∧
      (a.memory s').bytes = (a.memory s).bytes

/-- From `s` to `s'` only the slot of `size` bytes at `p` and bytes above the allocator's floor
have changed. -/
structure Touched (a : Access σ ε) (inv : σ → Prop) (floor : σ → ℕ) (p size : ℕ)
    (s s' : σ) : Prop where
  inv : inv s'
  floor_le : floor s ≤ floor s'
  size_le : (a.memory s).size ≤ (a.memory s').size
  bytes : ∀ i, i < floor s → (i < p ∨ p + size ≤ i) →
    (a.memory s').bytes i = (a.memory s).bytes i

section Frame

variable {a : Access σ ε} {inv : σ → Prop} {floor : σ → ℕ}

theorem Touched.refl {p size : ℕ} {s : σ} (hs : inv s) : Touched a inv floor p size s s :=
  ⟨hs, Nat.le_refl _, Nat.le_refl _, fun _ _ _ => rfl⟩

theorem Touched.trans {p size : ℕ} {s s' s'' : σ} (h : Touched a inv floor p size s s')
    (h' : Touched a inv floor p size s' s'') : Touched a inv floor p size s s'' where
  inv := h'.inv
  floor_le := h.floor_le.trans h'.floor_le
  size_le := h.size_le.trans h'.size_le
  bytes := by
    intro i hi hout
    calc (a.memory s'').bytes i = (a.memory s').bytes i :=
          h'.bytes i (hi.trans_le h.floor_le) hout
      _ = (a.memory s).bytes i := h.bytes i hi hout

/-- A change in a part of a slot is a change in the slot. -/
theorem Touched.widen {p size p' size' : ℕ} {s s' : σ} (h : Touched a inv floor p size s s')
    (hle : p' ≤ p) (hend : p + size ≤ p' + size') : Touched a inv floor p' size' s s' where
  inv := h.inv
  floor_le := h.floor_le
  size_le := h.size_le
  bytes := by
    intro i hi hout
    apply h.bytes i hi
    omega

/-- A further change above the first floor adds nothing to the slot. -/
theorem Touched.trans_above {p size q n : ℕ} {s s' s'' : σ}
    (h : Touched a inv floor p size s s') (h' : Touched a inv floor q n s' s'')
    (hq : floor s ≤ q) : Touched a inv floor p size s s'' where
  inv := h'.inv
  floor_le := h.floor_le.trans h'.floor_le
  size_le := h.size_le.trans h'.size_le
  bytes := by
    intro i hi hout
    calc (a.memory s'').bytes i = (a.memory s').bytes i :=
          h'.bytes i (hi.trans_le h.floor_le) (.inl (hi.trans_le hq))
      _ = (a.memory s).bytes i := h.bytes i hi hout

namespace Bumping

theorem touched_write (hb : Bumping a inv floor) (p : ℕ) (data : List UInt8) {s : σ}
    (hs : inv s) :
    Touched a inv floor p data.length s (a.write p data s) where
  inv := hb.write_inv p data s hs
  floor_le := (hb.write_floor p data s).ge
  size_le := (hb.write_size p data s).ge
  bytes := by
    intro i _ hout
    rw [hb.write_bytes, overwrite_outside hout]

theorem touched_writePair (hb : Bumping a inv floor) (p q length : ℕ) {s : σ} (hs : inv s) :
    Touched a inv floor p 8 s (a.writePair p q length s) := by
  have hfirst := hb.touched_write p (leBytes 4 q) hs
  have hsecond := hb.touched_write (p + 4) (leBytes 4 length) hfirst.inv
  rw [length_leBytes] at hfirst hsecond
  exact (hfirst.widen (Nat.le_refl p) (by omega)).trans (hsecond.widen (by omega) (by omega))

theorem touched_room (hb : Bumping a inv floor) {alignment size q : ℕ} {s s' : σ}
    (ha : IsAlignment alignment) (hs : inv s) (h : a.room alignment size s = .ok (q, s'))
    (p width : ℕ) :
    floor s ≤ q ∧ Touched a inv floor p width s s' := by
  obtain ⟨hinv, hle, hfloor, -, hsize, hbytes⟩ := hb.room ha hs h
  exact ⟨hle, hinv, by omega, hsize, fun i _ _ => by rw [hbytes]⟩

/-- Items stored above the floor leave everything below it alone. -/
theorem touched_items {item : Val → ℕ → σ → Except ε σ} {stride : ℕ} {vs : List Val}
    {q : ℕ} {s s' : σ}
    (hitem : ∀ v ∈ vs, ∀ q s s', inv s → item v q s = .ok s' →
      Touched a inv floor q stride s s')
    (hs : inv s) (hrun : Access.storeItems item stride vs q s = .ok s') :
    Touched a inv floor q (vs.length * stride) s s' := by
  induction vs generalizing q s with
  | nil =>
    obtain rfl := Except.ok.inj hrun
    exact .refl hs
  | cons v vs ih =>
    simp only [Access.storeItems] at hrun
    split at hrun
    · next s₁ hfirst =>
      have hhead := hitem v List.mem_cons_self q s s₁ hs hfirst
      have htail := ih (fun v hv => hitem v (List.mem_cons_of_mem _ hv)) hhead.inv hrun
      have hlen : (v :: vs).length * stride = stride + vs.length * stride := by
        rw [List.length_cons, Nat.succ_mul, Nat.add_comm]
      rw [hlen]
      exact (hhead.widen (Nat.le_refl q) (by omega)).trans (htail.widen (by omega) (by omega))
    · cases hrun

mutual

/-- A store changes its own slot and what lies above the floor. -/
theorem touched_store (hb : Bumping a inv floor) : ∀ (t : Ty) (v : Val) (p : ℕ) (s s' : σ),
    inv s → a.store t v p s = .ok s' → Touched a inv floor p t.size s s'
  | .scalar kind, v, p, s, s', hs, h => by
    cases v with
    | scalar n =>
      obtain rfl := Except.ok.inj h
      have hwrite := hb.touched_write p (leBytes kind.width n) hs
      rwa [length_leBytes] at hwrite
    | _ => cases h
  | .string, v, p, s, s', hs, h => by
    cases v with
    | string bytes =>
      simp only [Access.store] at h
      split at h
      · next q s₁ hroom =>
        obtain rfl := Except.ok.inj h
        obtain ⟨hq, htouched⟩ := hb.touched_room (.inl rfl) hs hroom p 8
        have hfill := htouched.trans_above (hb.touched_write q bytes htouched.inv) hq
        exact hfill.trans (hb.touched_writePair p q bytes.length hfill.inv)
      · cases h
    | _ => cases h
  | .list element, v, p, s, s', hs, h => by
    cases v with
    | list items =>
      simp only [Access.store] at h
      split at h
      · next q s₁ hroom =>
        obtain ⟨hq, htouched⟩ := hb.touched_room element.isAlignment hs hroom p 8
        split at h
        · next s₂ hitems =>
          obtain rfl := Except.ok.inj h
          have hstored := touched_items
            (fun v _ q s s' => touched_store hb element v q s s') htouched.inv hitems
          exact (htouched.trans_above hstored hq).trans
            (hb.touched_writePair p q items.length hstored.inv)
        · cases h
      · cases h
    | _ => cases h
  | .record fields, v, p, s, s', hs, h => by
    cases v with
    | record values =>
      have hfields := touched_fields hb fields values p 0 s s' hs h
      have hend := Ty.fieldsEnd_le_size fields
      exact hfields.widen (Nat.le_refl p) (by omega)
    | _ => cases h
  | .variant cases, v, p, s, s', hs, h => by
    cases v with
    | variant i payload =>
      have hwrite := hb.touched_write p (leBytes (discriminantWidth cases.length) i) hs
      obtain ⟨t, ht, hcase⟩ := touched_case hb cases i payload _ _ s' hwrite.inv h
      rw [length_leBytes] at hwrite
      have hpayload := Ty.payload_le_size ht
      have hdisc := Ty.discriminant_le_size cases
      exact (hwrite.widen (Nat.le_refl p) (by omega)).trans
        (hcase.widen (by omega) (by omega))
    | _ => cases h

theorem touched_fields (hb : Bumping a inv floor) : ∀ (ts : List Ty) (vs : List Val)
    (p o : ℕ) (s s' : σ), inv s → a.storeFields ts vs p o s = .ok s' →
    Touched a inv floor (p + o) (Ty.fieldsEnd o ts - o) s s'
  | [], [], p, o, s, s', hs, h => by
    obtain rfl := Except.ok.inj h
    exact .refl hs
  | t :: ts, v :: vs, p, o, s, s', hs, h => by
    simp only [Access.storeFields] at h
    split at h
    · next s₁ hfirst =>
      have hhead := touched_store hb t v _ s s₁ hs hfirst
      have htail := touched_fields hb ts vs p _ s₁ s' hhead.inv h
      have hle := le_alignTo o t.alignment_pos
      have hend := Ty.le_fieldsEnd (alignTo o t.alignment + t.size) ts
      have hcons : Ty.fieldsEnd o (t :: ts) =
          Ty.fieldsEnd (alignTo o t.alignment + t.size) ts := rfl
      exact (hhead.widen (by omega) (by omega)).trans (htail.widen (by omega) (by omega))
    · cases h
  | [], _ :: _, _, _, _, _, _, h => by cases h
  | _ :: _, [], _, _, _, _, _, h => by cases h

theorem touched_case (hb : Bumping a inv floor) : ∀ (cases : List Ty) (i : ℕ) (v : Val)
    (p : ℕ) (s s' : σ), inv s → a.storeCase cases i v p s = .ok s' →
    ∃ t ∈ cases, Touched a inv floor p t.size s s'
  | [], _, _, _, _, _, _, h => by cases h
  | t :: _, 0, v, p, s, s', hs, h => ⟨t, List.mem_cons_self, touched_store hb t v p s s' hs h⟩
  | _ :: ts, i + 1, v, p, s, s', hs, h => by
    obtain ⟨t, ht, htouched⟩ := touched_case hb ts i v p s s' hs h
    exact ⟨t, List.mem_cons_of_mem _ ht, htouched⟩

end

/-- Items fail as one of them does. -/
theorem items_error {P : ε → Prop} {item : Val → ℕ → σ → Except ε σ} {stride : ℕ}
    {vs : List Val} {q : ℕ} {s : σ} {e : ε}
    (hitem : ∀ v ∈ vs, ∀ q s, inv s → (∀ s', item v q s = .ok s' → inv s') ∧
      ∀ e, item v q s = .error e → P e)
    (hs : inv s) (h : Access.storeItems item stride vs q s = .error e) : P e := by
  induction vs generalizing q s with
  | nil => cases h
  | cons v vs ih =>
    have hv := hitem v List.mem_cons_self q s hs
    simp only [Access.storeItems] at h
    split at h
    · next s₁ hfirst =>
      exact ih (fun v hv => hitem v (List.mem_cons_of_mem _ hv)) (hv.1 s₁ hfirst) h
    · next e' hfirst =>
      obtain rfl := Except.error.inj h
      exact hv.2 _ hfirst

/-- The errors of an allocator, and the fault, are of one kind. -/
structure Fails (a : Access σ ε) (inv : σ → Prop) (P : ε → Prop) : Prop where
  fault : P a.fault
  room : ∀ {alignment size s e}, IsAlignment alignment → inv s →
    a.room alignment size s = .error e → P e

mutual

/-- A store fails as the allocator does, or with the fault. -/
theorem store_error (hb : Bumping a inv floor) {P : ε → Prop} (hf : Fails a inv P) :
    ∀ (t : Ty) (v : Val) (p : ℕ) (s : σ) (e : ε), inv s → a.store t v p s = .error e → P e
  | .scalar _, v, p, s, e, _, h => by
    cases v with
    | scalar n => cases h
    | _ => exact Except.error.inj h ▸ hf.fault
  | .string, v, p, s, e, hs, h => by
    cases v with
    | string bytes =>
      simp only [Access.store] at h
      split at h
      · cases h
      · next e' hr =>
        obtain rfl := Except.error.inj h
        exact hf.room (.inl rfl) hs hr
    | _ => exact Except.error.inj h ▸ hf.fault
  | .list element, v, p, s, e, hs, h => by
    cases v with
    | list items =>
      simp only [Access.store] at h
      split at h
      · next q s₁ hr =>
        split at h
        · cases h
        · next e' hitems =>
          obtain rfl := Except.error.inj h
          refine items_error (fun v _ q s hs => ⟨?_, ?_⟩)
            (hb.touched_room element.isAlignment hs hr p 8).2.inv hitems
          · exact fun s' h => (hb.touched_store element v q s s' hs h).inv
          · exact fun e h => store_error hb hf element v q s e hs h
      · next e' hr =>
        obtain rfl := Except.error.inj h
        exact hf.room element.isAlignment hs hr
    | _ => exact Except.error.inj h ▸ hf.fault
  | .record fields, v, p, s, e, hs, h => by
    cases v with
    | record values => exact fields_error hb hf fields values p 0 s e hs h
    | _ => exact Except.error.inj h ▸ hf.fault
  | .variant cases, v, p, s, e, hs, h => by
    cases v with
    | variant i payload =>
      exact case_error hb hf cases i payload _ _ e (hb.write_inv _ _ _ hs) h
    | _ => exact Except.error.inj h ▸ hf.fault

theorem fields_error (hb : Bumping a inv floor) {P : ε → Prop} (hf : Fails a inv P) :
    ∀ (ts : List Ty) (vs : List Val) (p o : ℕ) (s : σ) (e : ε), inv s →
    a.storeFields ts vs p o s = .error e → P e
  | [], [], _, _, _, _, _, h => by cases h
  | t :: ts, v :: vs, p, o, s, e, hs, h => by
    simp only [Access.storeFields] at h
    split at h
    · next s₁ hfirst =>
      exact fields_error hb hf ts vs p _ s₁ e (hb.touched_store t v _ s s₁ hs hfirst).inv h
    · next e' hfirst =>
      obtain rfl := Except.error.inj h
      exact store_error hb hf t v _ s _ hs hfirst
  | [], _ :: _, _, _, _, _, _, h => Except.error.inj h ▸ hf.fault
  | _ :: _, [], _, _, _, _, _, h => Except.error.inj h ▸ hf.fault

theorem case_error (hb : Bumping a inv floor) {P : ε → Prop} (hf : Fails a inv P) :
    ∀ (cases : List Ty) (i : ℕ) (v : Val) (p : ℕ) (s : σ) (e : ε), inv s →
    a.storeCase cases i v p s = .error e → P e
  | [], _, _, _, _, _, _, h => Except.error.inj h ▸ hf.fault
  | t :: _, 0, v, p, s, e, hs, h => store_error hb hf t v p s e hs h
  | _ :: ts, i + 1, v, p, s, e, hs, h => case_error hb hf ts i v p s e hs h

end

/-- The first byte of a variant tells its case. -/
theorem store_variant_first (hb : Bumping a inv floor) {cases : List Ty} {i : ℕ}
    {payload : Val} {p : ℕ} {s s' : σ} (hs : inv s) (hp : p < floor s)
    (h : a.store (.variant cases) (.variant i payload) p s = .ok s') :
    (a.memory s').bytes p = UInt8.ofNat i := by
  have hwrite := hb.touched_write p (leBytes (discriminantWidth cases.length) i) hs
  obtain ⟨t, -, hcase⟩ := hb.touched_case cases i payload _ _ s' hwrite.inv h
  have hoffset := Ty.discriminant_le_payloadOffset cases
  have hpos : 0 < discriminantWidth cases.length := (isAlignment_discriminant _).pos
  calc (a.memory s').bytes p =
        (a.memory (a.write p (leBytes (discriminantWidth cases.length) i) s)).bytes p :=
        hcase.bytes p (hp.trans_le hwrite.floor_le) (.inl (by omega))
    _ = UInt8.ofNat i := by
        rw [hb.write_bytes]
        obtain ⟨w, hw⟩ := Nat.exists_eq_succ_of_ne_zero hpos.ne'
        simp [overwrite, hw, leBytes]

/-- A value that leads with zero has a zero byte at its address. -/
theorem store_leading (hb : Bumping a inv floor) {t : Ty} {v : Val} (hv : LeadsWithZero t v)
    {p : ℕ} {s s' : σ} (hs : inv s) (hp : p < floor s) (h : a.store t v p s = .ok s') :
    (a.memory s').bytes p = 0 ∧ 0 < t.size := by
  induction t, v using LeadsWithZero.induct generalizing p s s' with
  | case1 kind n =>
    obtain rfl := Except.ok.inj h
    have hwidth := kind.width_cases
    have hzero : UInt8.ofNat n = 0 := by
      apply UInt8.toNat_inj.mp
      rw [UInt8.toNat_ofNat']
      exact hv
    refine ⟨?_, by simp only [Ty.size]; omega⟩
    rw [hb.write_bytes]
    obtain ⟨w, hw⟩ := Nat.exists_eq_succ_of_ne_zero (n := kind.width) (by omega)
    simp [overwrite, hw, leBytes, hzero]
  | case2 t ts v vs ih =>
    simp only [Access.store, Access.storeFields] at h
    split at h
    · next s₁ hfirst =>
      have hoff : alignTo 0 t.alignment = 0 :=
        alignTo_of_dvd t.alignment_pos (Nat.dvd_zero _)
      rw [hoff, Nat.add_zero] at hfirst
      have htouched := hb.touched_store t v p s s₁ hs hfirst
      obtain ⟨hbyte, hsize⟩ := ih hv hs hp hfirst
      have hrest := hb.touched_fields ts vs p _ s₁ s' htouched.inv h
      refine ⟨?_, ?_⟩
      · rw [hrest.bytes p (hp.trans_le htouched.floor_le) (.inl (by omega)), hbyte]
      · have hend := Ty.fieldsEnd_le_size (t :: ts)
        have hle := Ty.le_fieldsEnd (alignTo 0 t.alignment + t.size) ts
        have hcons : Ty.fieldsEnd 0 (t :: ts) =
          Ty.fieldsEnd (alignTo 0 t.alignment + t.size) ts := rfl
        omega
    · cases h
  | case3 cases i payload =>
    have hbyte := hb.store_variant_first hs hp h
    have hdisc := Ty.discriminant_le_size cases
    have hpos := (isAlignment_discriminant cases.length).pos
    refine ⟨?_, by omega⟩
    rw [hbyte]
    apply UInt8.toNat_inj.mp
    rw [UInt8.toNat_ofNat']
    exact hv
  | case4 t v h₁ h₂ h₃ =>
    rw [LeadsWithZero.eq_4 t v h₁ h₂ h₃] at hv
    exact hv.elim

theorem store_string (hb : Bumping a inv floor) {bytes : List UInt8} {p : ℕ} {s s' : σ}
    (hs : inv s) (hp : p + 8 ≤ floor s) (h : a.store .string (.string bytes) p s = .ok s') :
    ∃ q, floor s ≤ q ∧ q + bytes.length ≤ (a.memory s').size ∧
      slice (a.memory s').bytes p 4 = leBytes 4 q ∧
      slice (a.memory s').bytes (p + 4) 4 = leBytes 4 bytes.length ∧
      slice (a.memory s').bytes q bytes.length = bytes := by
  simp only [Access.store] at h
  split at h
  · next q s₁ hroom =>
    obtain rfl := Except.ok.inj h
    obtain ⟨-, hq, -, hroom, -, -⟩ := hb.room (.inl rfl) hs hroom
    refine ⟨q, hq, ?_, ?_, ?_, ?_⟩
    · simpa only [Access.writePair, hb.write_size] using hroom
    · rw [Access.writePair, hb.write_bytes, slice_overwrite_of_apart (.inr (Nat.le_refl _)),
        hb.write_bytes]
      have hback := slice_overwrite (a.memory (a.write q bytes s₁)).bytes p (leBytes 4 q)
      rwa [length_leBytes] at hback
    · rw [Access.writePair, hb.write_bytes]
      have hback := slice_overwrite
        (a.memory (a.write p (leBytes 4 q) (a.write q bytes s₁))).bytes (p + 4)
        (leBytes 4 bytes.length)
      rwa [length_leBytes] at hback
    · rw [Access.writePair, hb.write_bytes,
        slice_overwrite_of_apart (.inl (by rw [length_leBytes]; omega)), hb.write_bytes,
        slice_overwrite_of_apart (.inl (by rw [length_leBytes]; omega)), hb.write_bytes,
        slice_overwrite]
  · cases h

end Bumping

end Frame

end Eo9.Library.Canonical
