import Eo9.Kernel.Pci

/-!
# Sizing and assignment of base address registers

Whatever the functions answer, sizing panics nowhere and leaves the bump pointers alone, and an
assignment either takes the address that it finds in the register, or moves the pointer of
the segment over a range of the window.
-/

namespace Eo9.Kernel.Pci

open Eo9.Library Eo9.Library.Action

variable {D : Type} {ε : Type} [Bus D]

/-- The pointers that the windows are given out with stay where they are. -/
abbrev SameBars : Machine D → Machine D → Prop := Same Machine.nextBar

theorem mmioRead_respects (address : Nat) (width : AccessWidth) :
    Respects SameBars (fun _ => True) (mmioRead address width : Action (Machine D) ε Nat) :=
  fun _ => ⟨trivial, rfl⟩

theorem mmioWrite_respects (address : Nat) (width : AccessWidth) (value : Nat) :
    Respects SameBars (fun _ => True) (mmioWrite address width value : Action (Machine D) ε Unit) :=
  fun _ => ⟨trivial, rfl⟩

variable [Board D]

omit [Bus D] in
theorem controller_respects (segment : Nat) :
    Respects SameBars (fun ctrl => (Board.controllers D)[segment]? = some ctrl)
      (controller segment : Action (Machine D) Unit Controller) := by
  unfold controller
  split
  · rename_i ctrl h
    exact Respects.pure h
  · exact Respects.fail

variable [ConfigAccess D]

omit [Bus D] in
theorem configAddress_respects (address : FunctionAddress) (offset : Nat) :
    Respects SameBars (fun _ => True)
      (configAddress address offset : Action (Machine D) Unit Nat) := by
  unfold configAddress
  split
  · exact Respects.fail
  · refine (controller_respects _).bind fun _ _ => ?_
    refine Respects.bind (p := fun _ => True) (fun _ => ⟨trivial, rfl⟩) fun target _ => ?_
    cases target with
    | some target => exact Respects.pure trivial
    | none => exact Respects.fail

omit [Bus D] [Board D] [ConfigAccess D] in
theorem checkedAdd_respects (w a b : Nat) :
    Respects SameBars (fun _ => True) (Checked.checkedAdd w a b : Action (Machine D) Unit Nat) :=
  fun _ => Checked.wp_checkedAdd (fun _ => ⟨trivial, rfl⟩) ⟨⟨(), rfl⟩, rfl⟩

theorem configRead_respects (address : FunctionAddress) (offset : Nat) (width : AccessWidth) :
    Respects SameBars (fun _ => True)
      (configRead address offset width : Action (Machine D) Unit Nat) := by
  unfold configRead
  split
  · exact Respects.fail
  · refine (checkedAdd_respects _ _ _).bind fun stop _ => ?_
    split
    · exact Respects.fail
    · exact (configAddress_respects _ _).bind fun _ _ => mmioRead_respects _ _

theorem configWrite_respects (address : FunctionAddress) (offset : Nat) (width : AccessWidth)
    (value : Nat) :
    Respects SameBars (fun _ => True)
      (configWrite address offset width value : Action (Machine D) Unit Unit) := by
  unfold configWrite
  split
  · exact Respects.fail
  · refine (checkedAdd_respects _ _ _).bind fun stop _ => ?_
    split
    · exact Respects.fail
    · exact (configAddress_respects _ _).bind fun _ _ => mmioWrite_respects _ _ _

theorem configWriteAnyway_respects (address : FunctionAddress) (offset : Nat)
    (width : AccessWidth) (value : Nat) :
    Respects SameBars (fun _ => True)
      (configWriteAnyway address offset width value : Action (Machine D) ε Unit) := by
  unfold configWriteAnyway
  exact (configWrite_respects _ _ _ _).attempt.bind fun _ _ => Respects.pure trivial

/-- A relation that reads of configuration space respect, and writes to all of it but the
command register. -/
structure Lenient (rel : Machine D → Machine D → Prop) : Prop where
  read : ∀ address offset width,
    Respects rel (fun _ => True) (configRead address offset width : Action (Machine D) Unit Nat)
  write : ∀ address offset width value, offset ≠ 4 →
    Respects rel (fun _ => True)
      (configWrite address offset width value : Action (Machine D) Unit Unit)

theorem sameBars_lenient : Lenient (SameBars (D := D)) where
  read := configRead_respects
  write := fun address offset width value _ => configWrite_respects address offset width value

section Sizing

variable {rel : Machine D → Machine D → Prop} [Std.Refl rel] [IsTrans (Machine D) rel]

theorem Lenient.readOrZero (h : Lenient rel) (address : FunctionAddress) (offset : Nat)
    (width : AccessWidth) :
    Respects rel (fun _ => True)
      (configReadOrZero address offset width : Action (Machine D) ε Nat) := by
  unfold configReadOrZero
  refine (h.read _ _ _).attempt.bind fun r _ => ?_
  cases r with
  | ok value => exact Respects.pure trivial
  | error e => exact Respects.pure trivial

theorem Lenient.writeAnyway (h : Lenient rel) (address : FunctionAddress) {offset : Nat}
    (width : AccessWidth) (value : Nat) (hoffset : offset ≠ 4) :
    Respects rel (fun _ => True)
      (configWriteAnyway address offset width value : Action (Machine D) ε Unit) := by
  unfold configWriteAnyway
  exact (h.write _ _ _ _ hoffset).attempt.bind fun _ _ => Respects.pure trivial

theorem Lenient.functionPresent (h : Lenient rel) (address : FunctionAddress) :
    Respects rel (fun _ => True) (functionPresent address : Action (Machine D) ε Bool) := by
  unfold Pci.functionPresent
  refine (h.read _ _ _).attempt.bind fun r _ => ?_
  cases r with
  | ok value => exact Respects.pure trivial
  | error e => exact Respects.pure trivial

theorem Lenient.probe (h : Lenient rel) (address : FunctionAddress) {offset : Nat}
    (original : Nat) (hoffset : offset ≠ 4) :
    Respects rel (fun _ => True)
      (probe address offset original : Action (Machine D) ε Nat) := by
  unfold Pci.probe
  refine (h.writeAnyway _ _ _ hoffset).bind fun _ _ => ?_
  refine (h.readOrZero _ _ _).bind fun _ _ => ?_
  exact (h.writeAnyway _ _ _ hoffset).bind fun _ _ => Respects.pure trivial

omit [Bus D] [Board D] [ConfigAccess D] in
/-- The offset of a base address register is a small number. -/
theorem barOffset_eq {index : Nat} (h : index < 6) :
    (barOffset index : Action (Machine D) ε Nat) = pure (0x10 + index * 4) := by
  have hmul : index * 4 < 2 ^ 32 := by omega
  have hadd : 0x10 + index * 4 < 2 ^ 32 := by omega
  unfold barOffset
  rw [Checked.mul_of_lt hmul]
  exact Checked.add_of_lt hadd

omit [Bus D] [Board D] [ConfigAccess D] [IsTrans (Machine D) rel] in
theorem barOffset_respects {index : Nat} (h : index < 6) :
    Respects rel (fun offset => offset = 0x10 + index * 4)
      (barOffset index : Action (Machine D) ε Nat) := by
  rw [barOffset_eq h]
  exact Respects.pure rfl

omit [Bus D] [Board D] [ConfigAccess D] [IsTrans (Machine D) rel] in
theorem add_respects {w a b : Nat} (h : a + b < 2 ^ w) :
    Respects rel (fun sum => sum = a + b)
      (Checked.add w a b : Action (Machine D) ε Nat) := by
  rw [Checked.add_of_lt h]
  exact Respects.pure rfl

theorem Lenient.barMask (h : Lenient rel) (address : FunctionAddress) {offset : Nat}
    (maskLow : Nat) (ioSpace wide : Bool) (hlow : 0x10 ≤ offset) (hhigh : offset < 0x28) :
    Respects rel (fun _ => True)
      (barMask address offset maskLow ioSpace wide : Action (Machine D) ε Nat) := by
  unfold Pci.barMask
  split
  · refine (add_respects (by omega)).bind fun highOffset hoffset => ?_
    refine (h.readOrZero _ _ _).bind fun _ _ => ?_
    exact (h.probe _ _ (by omega)).bind fun _ _ => Respects.pure trivial
  · split
    · exact Respects.pure trivial
    · exact Respects.pure trivial

/-- The registers described have an index that exists. -/
theorem Lenient.describeFrom (h : Lenient rel) (address : FunctionAddress) (fuel index : Nat)
    (bars : List BarDescription) (hfuel : 6 ≤ fuel + index)
    (hbars : ∀ bar ∈ bars, bar.index < 6) :
    Respects rel (fun bars => ∀ bar ∈ bars, bar.index < 6)
      (describeFrom address fuel index bars : Action (Machine D) ε _) := by
  induction fuel generalizing index bars with
  | zero =>
    unfold Pci.describeFrom
    rw [if_neg (by omega)]
    exact Respects.pure hbars
  | succ fuel ih =>
    unfold Pci.describeFrom
    split
    · rename_i hlt
      refine (barOffset_respects hlt).bind fun offset hoffset => ?_
      refine (h.read _ _ _).attempt.bind fun r _ => ?_
      cases r with
      | error e => exact Respects.pure hbars
      | ok originalLow =>
        dsimp only
        refine (h.probe _ _ (by omega)).bind fun maskLow _ => ?_
        refine (h.barMask _ _ _ _ (by omega) (by omega)).bind fun mask _ => ?_
        refine (add_respects (by split <;> omega)).bind fun next hnext => ?_
        apply ih
        · subst hnext
          split <;> omega
        · -- a register that is described is the one at the present index
          intro bar hbar
          split at hbar
          · rcases List.mem_append.mp hbar with hbar | hbar
            · exact hbars bar hbar
            · rw [List.mem_singleton.mp hbar]
              exact hlt
          · exact hbars bar hbar
    · exact Respects.pure hbars

theorem Lenient.describeBars (h : Lenient rel) (address : FunctionAddress) :
    Respects rel (fun bars => ∀ bar ∈ bars, bar.index < 6)
      (describeBars address : Action (Machine D) ε _) := by
  unfold Pci.describeBars
  refine (h.readOrZero _ _ _).bind fun headerType _ => ?_
  split
  · exact Respects.pure (by simp)
  · exact h.describeFrom _ _ _ _ (by omega) (by simp)

theorem Lenient.currentBase (h : Lenient rel) (address : FunctionAddress) {bar : BarDescription}
    (hindex : bar.index < 6) :
    Respects rel (fun _ => True) (currentBase address bar : Action (Machine D) Unit Nat) := by
  unfold Pci.currentBase
  refine (barOffset_respects hindex).bind fun offset hoffset => ?_
  refine (h.read _ _ _).bind fun low _ => ?_
  refine Respects.bind (p := fun _ => True) ?_ fun high _ => Respects.pure trivial
  unfold highHalf
  split
  · exact (add_respects (by omega)).bind fun _ _ => h.read _ _ _
  · exact Respects.pure trivial

theorem Lenient.placeBar (h : Lenient rel) (address : FunctionAddress) {bar : BarDescription}
    (base : Nat) (hindex : bar.index < 6) :
    Respects rel (fun _ => True) (placeBar address bar base : Action (Machine D) Unit Unit) := by
  unfold Pci.placeBar
  refine (barOffset_respects hindex).bind fun offset hoffset => ?_
  refine (h.writeAnyway _ _ _ (by omega)).bind fun _ _ => ?_
  split
  · refine (add_respects (by omega)).bind fun highOffset hhigh => ?_
    exact h.writeAnyway _ _ _ (by omega)
  · exact Respects.pure trivial

end Sizing

/-- The pointer of a segment has moved over the range, which is part of the window. -/
structure Bumps (segment : Nat) (ctrl : Controller) (range : Extent)
    (m m' : Machine D) : Prop where
  base_ge : m.nextBar segment ≤ range.base
  stop_le : range.stop ≤ ctrl.mmioEnd
  moved : m'.nextBar = Function.update m.nextBar segment range.stop

omit [Bus D] [Board D] [ConfigAccess D] in
theorem Bumps.same {segment : Nat} {ctrl : Controller} {range : Extent} {m m' m'' : Machine D}
    (h : Bumps segment ctrl range m m') (hs : SameBars m' m'') :
    Bumps segment ctrl range m m'' where
  base_ge := h.base_ge
  stop_le := h.stop_le
  moved := Eq.trans hs h.moved

omit [Bus D] [Board D] [ConfigAccess D] in
/-- The range taken starts at the pointer or above it, for a size of any shape. -/
theorem bumpBar_spec (segment : Nat) (ctrl : Controller) {size : Nat} (hsize : size ≠ 0)
    (m : Machine D) :
    wp (bumpBar segment ctrl size) m
      (fun base m' => Bumps segment ctrl ⟨base, size⟩ m m' ∧ m' = { m with nextBar := m'.nextBar })
      fun e m' => (∃ x, e = .err x) ∧ m' = m := by
  have hstop : (∃ x, (Stop.err () : Stop Unit) = .err x) ∧ m = m := ⟨⟨(), rfl⟩, rfl⟩
  unfold bumpBar
  refine wp_bind (q := fun s m' => s = size ∧ size < 2 ^ 64 ∧ m' = m)
    (Checked.wp_tryFrom (fun h => ⟨rfl, h, rfl⟩) hstop) (fun s m' h => ?_) fun _ _ => id
  obtain ⟨rfl, hlt, rfl⟩ := h
  refine wp_bind_of_ok (gets_apply _ _) ?_
  rw [Checked.sub_of_le (by omega)]
  refine wp_bind_of_ok (pure_apply _ _) ?_
  refine wp_bind (q := fun sum m'' => sum = m'.nextBar segment + (s - 1) ∧ sum < 2 ^ 64 ∧ m'' = m')
    (Checked.wp_checkedAdd (fun h => ⟨rfl, h, rfl⟩) hstop) (fun sum m'' h => ?_) fun _ _ => id
  obtain ⟨hsum, hsumlt, rfl⟩ := h
  generalize hbase : sum &&& Checked.complement 64 (s - 1) = base
  refine wp_bind (q := fun stop m' => stop = base + s ∧ m' = m'')
    (Checked.wp_checkedAdd (fun h => ⟨rfl, rfl⟩) hstop) (fun stop m' h => ?_) fun _ _ => id
  obtain ⟨rfl, rfl⟩ := h
  split
  · exact wp_fail hstop
  · rename_i hend
    refine wp_bind_of_ok (modify_apply _ _) (wp_pure ?_)
    have hmask : sum ≤ base + (s - 1) := by
      rw [← hbase]
      exact Checked.le_and_complement_add hsumlt (by omega)
    refine ⟨⟨?_, Nat.le_of_not_lt hend, rfl⟩, rfl⟩
    dsimp only
    omega

/-- The address came out of the register, or the pointer moved over a new place for it. -/
def Assigns (address : FunctionAddress) (bar : BarDescription) (m : Machine D) (base : Nat)
    (m' : Machine D) : Prop :=
  (∃ m₁, currentBase address bar m = (.ok base, m₁) ∧ base ≠ 0 ∧ SameBars m m') ∨
    ∃ ctrl, (Board.controllers D)[address.segment]? = some ctrl ∧
      Bumps address.segment ctrl ⟨base, bar.size⟩ m m'

/-- An assignment that fails may have moved the pointer all the same. -/
def Wastes (address : FunctionAddress) (m m' : Machine D) : Prop :=
  SameBars m m' ∨ ∃ ctrl range, (Board.controllers D)[address.segment]? = some ctrl ∧
    Bumps address.segment ctrl range m m'

theorem assignBar_spec (address : FunctionAddress) {bar : BarDescription} (h : bar.index < 6)
    (m : Machine D) :
    wp (assignBar address bar) m (fun base m' => bar.size ≠ 0 ∧ Assigns address bar m base m')
      fun e m' => (∃ x, e = .err x) ∧ Wastes address m m' := by
  unfold assignBar
  split
  · exact wp_fail ⟨⟨(), rfl⟩, .inl rfl⟩
  rename_i hbar
  have hsize : bar.size ≠ 0 := fun hzero => hbar (.inr hzero)
  have hquiet : ∀ (x : Unit) m', SameBars m m' →
      (∃ y, (Stop.err x : Stop Unit) = .err y) ∧ Wastes address m m' :=
    fun x m' hs => ⟨⟨x, rfl⟩, .inl hs⟩
  refine wp_bind (q := fun ctrl m' => (Board.controllers D)[address.segment]? = some ctrl ∧ m' = m)
    ?_ (fun ctrl m' hctrl => ?_) fun _ _ => id
  · unfold controller
    split
    · rename_i ctrl hctrl
      exact wp_pure ⟨hctrl, rfl⟩
    · exact wp_fail ⟨⟨(), rfl⟩, .inl rfl⟩
  obtain ⟨hctrl, rfl⟩ := hctrl
  refine wp_bind (q := fun current m₁ => currentBase address bar m' = (.ok current, m₁) ∧
    SameBars m' m₁) ?_ (fun current m₁ hcurrent => ?_) fun _ _ => id
  · have hread := sameBars_lenient.currentBase address h m'
    rw [wp_iff] at hread ⊢
    constructor
    · exact fun current m₁ hrun => ⟨hrun, (hread.1 _ _ hrun).2⟩
    · exact fun e m₁ hrun => ⟨(hread.2 _ _ hrun).1, .inl (hread.2 _ _ hrun).2⟩
  obtain ⟨hcurrent, hsame⟩ := hcurrent
  have hbump : ∀ {range : Extent} {m₂}, Bumps address.segment ctrl range m₁ m₂ →
      Bumps address.segment ctrl range m' m₂ := fun hb =>
    ⟨hsame ▸ hb.base_ge, hb.stop_le, hsame ▸ hb.moved⟩
  refine wp_bind (q := fun base m₂ => Assigns address bar m' base m₂) ?_
    (fun base m₂ hassign => ?_) fun _ _ => id
  · unfold baseOf
    split
    · rename_i hne
      refine Checked.wp_tryFrom (fun _ => .inl ⟨m₁, hcurrent, hne, hsame⟩) (hquiet () _ hsame)
    · refine wp_bind (bumpBar_spec address.segment ctrl hsize m₁) (fun base m₂ hrun => ?_)
        fun e m₂ he => ⟨he.1, .inl (he.2 ▸ hsame)⟩
      have hb := hrun.1
      refine Respects.wp_bind (sameBars_lenient.placeBar address base h) (fun _ m₃ _ hs => ?_)
        fun x m₃ hs => ?_
      · exact wp_pure (.inr ⟨ctrl, hctrl, (hbump hb).same hs⟩)
      · exact ⟨⟨x, rfl⟩, .inr ⟨ctrl, _, hctrl, (hbump hb).same hs⟩⟩
  have hwaste : ∀ m₃, SameBars m₂ m₃ → Wastes address m' m₃ := by
    intro m₃ hs
    rcases hassign with ⟨_, _, _, hm⟩ | ⟨ctrl, hctrl, hb⟩
    · exact .inl (Eq.trans hs hm)
    · exact .inr ⟨ctrl, _, hctrl, hb.same hs⟩
  have hkeep : ∀ m₃, SameBars m₂ m₃ → Assigns address bar m' base m₃ := by
    intro m₃ hs
    rcases hassign with ⟨m₁, hread, hne, hm⟩ | ⟨ctrl, hctrl, hb⟩
    · exact .inl ⟨m₁, hread, hne, Eq.trans hs hm⟩
    · exact .inr ⟨ctrl, hctrl, hb.same hs⟩
  refine Respects.wp_bind (configRead_respects address 0x04 .word) (fun command m₃ _ hs => ?_)
    fun x m₃ hs => ⟨⟨x, rfl⟩, hwaste m₃ hs⟩
  refine Respects.wp_bind (configWriteAnyway_respects address 0x04 .word _)
    (fun _ m₄ _ hs' => wp_pure ⟨hsize, hkeep m₄ (Eq.trans hs' hs)⟩)
    fun x m₄ hs' => ⟨⟨x, rfl⟩, hwaste m₄ (Eq.trans hs' hs)⟩

end Eo9.Kernel.Pci
