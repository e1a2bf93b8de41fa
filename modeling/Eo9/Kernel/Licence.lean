import Eo9.Kernel.Assignment
import Eo9.Kernel.Providers

/-!
# The licence to access memory

A function may access memory while the bus-master bit of its command register is set. On a
bus whose command registers behave as the specification of PCI asks, the operations of the
kernel change the bits of few functions: sizing, assignment and reads set none, and revoking
the licence of a function clears its bit and leaves the others alone.
-/

namespace Eo9.Kernel.Pci

open Eo9.Library Eo9.Library.Action

/-- An address that configuration space has a place for. -/
def Valid (D : Type) [Board D] (address : FunctionAddress) : Prop :=
  address.device < 32 ∧ address.function < 8 ∧
    ∃ ctrl, (Board.controllers D)[address.segment]? = some ctrl

/-- A bus with functions that follow the specification of PCI: where the command registers
are, what their bus-master bits hold, and which functions there are. -/
class LawfulPci (D : Type) [Bus D] [ConfigAccess D] [Board D] where
  master : D → FunctionAddress → Bool
  commandAt : D → (address : Nat) → Option FunctionAddress
  present : FunctionAddress → Prop
  /-- Reads and the way to configuration space leave the bits alone. -/
  map_master : ∀ (d : D) address offset f,
    master (ConfigAccess.map d address offset).2 f = master d f
  read_master : ∀ (d : D) address width f, master (Bus.read d address width).2 f = master d f
  /-- A bit that is set after a write is set by it, or was set and is not in its way. -/
  write_master : ∀ (d : D) address width value f, master (Bus.write d address width value) f = true →
    (∃ k < width.bytes, commandAt d (address + k) = some f ∧ value.testBit (8 * k + 2) = true) ∨
      master d f = true ∧ ∀ k < width.bytes, commandAt d (address + k) ≠ some f
  /-- A write to the command register of one function leaves the others alone. -/
  write_other : ∀ (d : D) address width value f g,
    (∃ k < width.bytes, commandAt d (address + k) = some g) →
    (∀ k < width.bytes, commandAt d (address + k) ≠ some f) →
    master (Bus.write d address width value) f = master d f
  /-- The command register is at offset 4. -/
  config_command : ∀ (d : D) address offset target d', Valid D address →
    ConfigAccess.map d address offset = (some target, d') → ∀ k, offset + k < CONFIG_SPACE_SIZE →
    commandAt d' (target + k) = if offset + k = 4 then some address else none
  /-- A register block outside of PCI has nothing to do with the bits. -/
  region_master : ∀ (d : D), ∀ region ∈ Board.regions D, ∀ offset width value f,
    offset + width.bytes ≤ region.size →
    master (Bus.write d (region.base + offset) width value) f = master d f
  /-- A function that is there can be reached, and only such a one has a vendor. -/
  map_present : ∀ (d : D) address offset, present address → offset < CONFIG_SPACE_SIZE →
    (ConfigAccess.map d address offset).1.isSome
  vendor : ∀ (d : D) address target d', Valid D address →
    ConfigAccess.map d address 0 = (some target, d') →
    (Bus.read d' target .word).1 % 2 ^ 16 ≠ 0xffff → present address
  /-- The command register reads back the bit that it holds. -/
  command_read : ∀ (d : D) address target d', present address →
    ConfigAccess.map d address 4 = (some target, d') →
    ((Bus.read d' target .word).1 % 2 ^ 16).testBit 2 = true → master d' address = true

open LawfulPci (master commandAt present)

variable {D : Type} {ε : Type} [Bus D] [ConfigAccess D] [Board D] [LawfulPci D]

/-- Only the given functions may have their bit set, and nothing else happens. -/
def Licenses (fs : FunctionAddress → Prop) (m m' : Machine D) : Prop :=
  m'.history = m.history ∧
    ∀ f, ¬ fs f → master m'.bus f = true → master m.bus f = true

/-- Only the given functions may have their bit changed, and nothing else happens. -/
def Spares (fs : FunctionAddress → Prop) (m m' : Machine D) : Prop :=
  m'.history = m.history ∧ ∀ f, ¬ fs f → master m'.bus f = master m.bus f

/-- No function at all. -/
abbrev nobody : FunctionAddress → Prop := fun _ => False

/-- The function with the address. -/
abbrev only (address : FunctionAddress) : FunctionAddress → Prop := fun f => f = address

variable {fs gs : FunctionAddress → Prop} {m m' m'' : Machine D}

instance : Std.Refl (Licenses fs (D := D)) := ⟨fun _ => ⟨rfl, fun _ _ => id⟩⟩

instance : IsTrans (Machine D) (Licenses fs) :=
  ⟨fun _ _ _ h h' => ⟨Eq.trans h'.1 h.1, fun f hf hm => h.2 f hf (h'.2 f hf hm)⟩⟩

instance : Std.Refl (Spares fs (D := D)) := ⟨fun _ => ⟨rfl, fun _ _ => rfl⟩⟩

instance : IsTrans (Machine D) (Spares fs) :=
  ⟨fun _ _ _ h h' => ⟨Eq.trans h'.1 h.1, fun f hf => Eq.trans (h'.2 f hf) (h.2 f hf)⟩⟩

theorem Spares.licenses (h : Spares fs m m') : Licenses fs m m' :=
  ⟨h.1, fun f hf hm => h.2 f hf ▸ hm⟩

theorem Spares.mono (h : Spares fs m m') (hle : ∀ f, fs f → gs f) : Spares gs m m' :=
  ⟨h.1, fun f hf => h.2 f fun hfs => hf (hle f hfs)⟩

theorem Licenses.mono (h : Licenses fs m m') (hle : ∀ f, fs f → gs f) : Licenses gs m m' :=
  ⟨h.1, fun f hf => h.2 f fun hfs => hf (hle f hfs)⟩

/-- Where an access to configuration space lands. -/
structure Reaches (address : FunctionAddress) (offset : Nat) (m : Machine D) (target : Nat)
    (m' : Machine D) : Prop where
  valid : Valid D address
  mapped : ConfigAccess.map m.bus address offset = (some target, m'.bus)
  history : m'.history = m.history

/-- A function that is there is reached. -/
theorem configAddress_spec (address : FunctionAddress) (offset : Nat) (m : Machine D) :
    wp (configAddress address offset) m (Reaches address offset m)
      fun e m' => (∃ x, e = .err x) ∧ Spares nobody m m' ∧
        ¬ (Valid D address ∧ present (D := D) address ∧ offset < CONFIG_SPACE_SIZE) := by
  unfold configAddress
  split
  · rename_i hbad
    refine wp_fail ⟨⟨(), rfl⟩, ⟨rfl, fun _ _ => rfl⟩, fun h => ?_⟩
    obtain ⟨⟨hdevice, hfunction, -⟩, -, hoffset⟩ := h
    omega
  rename_i hgood
  refine wp_bind (q := fun ctrl m' => (Board.controllers D)[address.segment]? = some ctrl ∧ m' = m)
    ?_ (fun ctrl m' h => ?_) fun _ _ => id
  · unfold controller
    split
    · rename_i ctrl hctrl
      exact wp_pure ⟨hctrl, rfl⟩
    · rename_i hnone
      refine wp_fail ⟨⟨(), rfl⟩, ⟨rfl, fun _ _ => rfl⟩, fun h => ?_⟩
      obtain ⟨⟨-, -, ctrl, hctrl⟩, -⟩ := h
      exact absurd (hnone.symm.trans hctrl) nofun
  obtain ⟨hctrl, rfl⟩ := h
  refine wp_bind_of_ok (update_apply _ _) ?_
  have hvalid : Valid D address := by
    rw [not_or, not_or, Nat.not_le, Nat.not_le] at hgood
    exact ⟨hgood.1, hgood.2.1, ctrl, hctrl⟩
  rcases hmap : ConfigAccess.map m'.bus address offset with ⟨_ | target, d⟩
  · refine wp_fail ⟨⟨(), rfl⟩, ⟨rfl, fun f _ => ?_⟩, fun h => ?_⟩
    · have hmaster := LawfulPci.map_master m'.bus address offset f
      rwa [hmap] at hmaster
    · have hpresent := LawfulPci.map_present m'.bus address offset h.2.1 h.2.2
      rw [hmap] at hpresent
      exact absurd hpresent nofun
  · exact wp_pure ⟨hvalid, hmap, rfl⟩

theorem Reaches.spares {address : FunctionAddress} {offset target : Nat}
    (h : Reaches address offset m target m') : Spares nobody m m' := by
  refine ⟨h.history, fun f _ => ?_⟩
  have hmaster := LawfulPci.map_master m.bus address offset f
  rwa [h.mapped] at hmaster

/-- An access that configuration space has a place for. -/
structure Fitting (offset : Nat) (width : AccessWidth) : Prop where
  narrow : width ≠ .qword
  aligned : width.bytes ∣ offset
  ends : offset + width.bytes ≤ CONFIG_SPACE_SIZE

omit [Bus D] [ConfigAccess D] [Board D] [LawfulPci D] in
/-- The checks in front of an access to configuration space. -/
theorem fitting_cases {α : Type} (offset : Nat) (width : AccessWidth)
    (access : Action (Machine D) Unit α) :
    let checked : Action (Machine D) Unit α := do
      if width = .qword ∨ ¬ width.bytes ∣ offset then Action.fail ()
      else
        let stop ← Checked.checkedAdd 32 offset width.bytes
        if CONFIG_SPACE_SIZE < stop then Action.fail () else access
    checked = Action.fail () ∧ ¬ Fitting offset width ∨
      checked = access ∧ Fitting offset width := by
  intro checked
  by_cases hshape : width = .qword ∨ ¬ width.bytes ∣ offset
  · exact .inl ⟨if_pos hshape, fun h => hshape.elim h.narrow fun hn => hn h.aligned⟩
  have hchecked : checked = (do
      let stop ← Checked.checkedAdd 32 offset width.bytes
      if CONFIG_SPACE_SIZE < stop then Action.fail () else access) := if_neg hshape
  rw [hchecked]
  rw [not_or, not_not] at hshape
  by_cases hfits : offset + width.bytes < 2 ^ 32
  · have hadd : (Checked.checkedAdd 32 offset width.bytes : Action (Machine D) Unit Nat) =
        pure (offset + width.bytes) := if_pos hfits
    rw [hadd]
    by_cases hend : CONFIG_SPACE_SIZE < offset + width.bytes
    · exact .inl ⟨if_pos hend, fun h => absurd h.ends (by omega)⟩
    · exact .inr ⟨if_neg hend, hshape.1, hshape.2, by omega⟩
  · have hadd : (Checked.checkedAdd 32 offset width.bytes : Action (Machine D) Unit Nat) =
        Action.fail () := if_neg hfits
    rw [hadd]
    refine .inl ⟨rfl, fun h => ?_⟩
    have hends := h.ends
    unfold CONFIG_SPACE_SIZE at hends
    omega

/-- An access of configuration space that fits meets the command register at its first byte
or nowhere. -/
theorem Reaches.command {address : FunctionAddress} {offset target : Nat} {width : AccessWidth}
    (h : Reaches address offset m target m') (hfit : Fitting offset width) {f : FunctionAddress}
    {k : Nat} (hk : k < width.bytes) (hat : commandAt m'.bus (target + k) = some f) :
    f = address ∧ offset = 4 ∧ k = 0 := by
  have hends := hfit.ends
  rw [LawfulPci.config_command _ _ _ _ _ h.valid h.mapped k (by omega)] at hat
  split at hat
  · rename_i hfour
    refine ⟨(Option.some.inj hat).symm, ?_⟩
    obtain ⟨q, hq⟩ := hfit.aligned
    cases width with
    | byte =>
      simp only [AccessWidth.bytes] at hk hq
      omega
    | word =>
      simp only [AccessWidth.bytes] at hk hq
      omega
    | dword =>
      simp only [AccessWidth.bytes] at hk hq
      omega
    | qword => exact absurd rfl hfit.narrow
  · exact absurd hat nofun

/-- What a write to configuration space does to the bits. -/
structure Writes (address : FunctionAddress) (offset value : Nat) (m m' : Machine D) : Prop where
  history : m'.history = m.history
  master : ∀ f, LawfulPci.master m'.bus f = true →
    f = address ∧ offset = 4 ∧ value.testBit 2 = true ∨
      LawfulPci.master m.bus f = true ∧ ¬ (f = address ∧ offset = 4)
  others : offset = 4 → ∀ f, f ≠ address → LawfulPci.master m'.bus f = LawfulPci.master m.bus f

theorem configWrite_spec (address : FunctionAddress) (offset : Nat) (width : AccessWidth)
    (value : Nat) (m : Machine D) :
    wp (configWrite address offset width value) m
      (fun _ m' => Writes address offset value m m')
      fun e m' => (∃ x, e = .err x) ∧ Spares nobody m m' ∧
        ¬ (Valid D address ∧ present (D := D) address ∧ Fitting offset width) := by
  rcases fitting_cases offset width
    (do mmioWrite (← configAddress address offset) width value : Action (Machine D) Unit Unit)
    with ⟨hrun, hfit⟩ | ⟨hrun, hfit⟩
  · have hfail : (configWrite address offset width value : Action (Machine D) Unit Unit) =
        Action.fail () := hrun
    rw [hfail]
    exact wp_fail ⟨⟨(), rfl⟩, ⟨rfl, fun _ _ => rfl⟩, fun h => hfit h.2.2⟩
  have haccess : (configWrite address offset width value : Action (Machine D) Unit Unit) =
      (do mmioWrite (← configAddress address offset) width value) := hrun
  rw [haccess]
  have hends := hfit.ends
  have hbytes : 0 < width.bytes := by
    cases width <;> decide
  refine wp_bind (configAddress_spec address offset m) (fun target m₁ h => ?_) fun e m₁ h => ?_
  · have hspares := h.spares
    refine wp_modify ?_
    have hat : ∀ k, k < width.bytes → commandAt m₁.bus (target + k) =
        if offset + k = 4 then some address else none := fun k hk =>
      LawfulPci.config_command _ _ _ _ _ h.valid h.mapped k (by omega)
    refine ⟨h.history, fun f hf => ?_, fun hfour f hne => ?_⟩
    · rcases LawfulPci.write_master _ _ _ _ _ hf with ⟨k, hk, hcommand, hbit⟩ | ⟨hold, hclear⟩
      · left
        obtain ⟨hself, hfour, rfl⟩ := h.command hfit hk hcommand
        rw [Nat.testBit_mod_two_pow, Bool.and_eq_true] at hbit
        exact ⟨hself, hfour, hbit.2⟩
      · right
        refine ⟨hspares.2 f id ▸ hold, fun hself => ?_⟩
        apply hclear 0 hbytes
        rw [hat 0 hbytes, hself.1, hself.2]
        rfl
    · have hwrite := LawfulPci.write_other m₁.bus target width (value % 2 ^ (8 * width.bytes)) f
        address ⟨0, hbytes, by rw [hat 0 hbytes, hfour]; rfl⟩
        fun k hk hcommand => hne (h.command hfit hk hcommand).1
      exact Eq.trans hwrite (hspares.2 f id)
  · exact ⟨h.1, h.2.1, fun hand => h.2.2 ⟨hand.1, hand.2.1, by omega⟩⟩

theorem configRead_spec (address : FunctionAddress) (offset : Nat) (width : AccessWidth)
    (m : Machine D) :
    wp (configRead address offset width) m
      (fun value m' => Spares nobody m m' ∧ (offset = 4 → width = .word →
        present (D := D) address → value.testBit 2 = true → master m.bus address = true))
      fun e m' => (∃ x, e = .err x) ∧ Spares nobody m m' ∧
        ¬ (Valid D address ∧ present (D := D) address ∧ Fitting offset width) := by
  rcases fitting_cases offset width
    (do mmioRead (← configAddress address offset) width : Action (Machine D) Unit Nat)
    with ⟨hrun, hfit⟩ | ⟨hrun, hfit⟩
  · have hfail : (configRead address offset width : Action (Machine D) Unit Nat) =
        Action.fail () := hrun
    rw [hfail]
    exact wp_fail ⟨⟨(), rfl⟩, ⟨rfl, fun _ _ => rfl⟩, fun h => hfit h.2.2⟩
  have haccess : (configRead address offset width : Action (Machine D) Unit Nat) =
      (do mmioRead (← configAddress address offset) width) := hrun
  rw [haccess]
  have hends := hfit.ends
  have hbytes : 0 < width.bytes := by
    cases width <;> decide
  refine wp_bind (configAddress_spec address offset m) (fun target m₁ h => ?_) fun e m₁ h => ?_
  · refine wp_of_ok rfl ⟨⟨h.history, fun f _ => ?_⟩, fun hfour hword hpresent hbit => ?_⟩
    · exact Eq.trans (LawfulPci.read_master _ _ _ f) (h.spares.2 f id)
    · subst hfour hword
      rw [← h.spares.2 address id]
      exact LawfulPci.command_read _ _ _ _ hpresent h.mapped hbit
  · exact ⟨h.1, h.2.1, fun hand => h.2.2 ⟨hand.1, hand.2.1, by omega⟩⟩

theorem configRead_spares (address : FunctionAddress) (offset : Nat) (width : AccessWidth) :
    Respects (Spares nobody) (fun _ => True)
      (configRead address offset width : Action (Machine D) Unit Nat) := fun m =>
  wp_mono (configRead_spec address offset width m) (fun _ _ h => ⟨trivial, h.1⟩)
    fun _ _ h => ⟨h.1, h.2.1⟩

/-- A write that carries no licence gives none. -/
theorem configWrite_licenses (address : FunctionAddress) {offset : Nat} (width : AccessWidth)
    {value : Nat} (m : Machine D)
    (h : offset = 4 → value.testBit 2 = true → master m.bus address = true) :
    wp (configWrite address offset width value) m (fun _ m' => True ∧ Licenses nobody m m')
      fun e m' => (∃ x, e = .err x) ∧ Licenses nobody m m' := by
  refine wp_mono (configWrite_spec address offset width value m) (fun _ m' hw => ?_) fun e m' he => ?_
  · refine ⟨trivial, hw.history, fun f _ hf => ?_⟩
    rcases hw.master f hf with ⟨rfl, hfour, hbit⟩ | ⟨hold, -⟩
    · exact h hfour hbit
    · exact hold
  · exact ⟨he.1, he.2.1.licenses⟩

theorem licenses_lenient : Lenient (Licenses nobody (D := D)) where
  read := fun address offset width =>
    (configRead_spares address offset width).weaken fun _ _ => Spares.licenses
  write := fun address _ width _ hne m =>
    configWrite_licenses address width m fun hfour => absurd hfour hne

theorem configWriteAnyway_licenses (address : FunctionAddress) {offset : Nat}
    (width : AccessWidth) {value : Nat} (m : Machine D)
    (h : offset = 4 → value.testBit 2 = true → master m.bus address = true) :
    wp (configWriteAnyway address offset width value : Action (Machine D) ε Unit) m
      (fun _ m' => Licenses nobody m m') fun _ _ => False := by
  have hattempt : wp ((configWrite address offset width value).attempt :
      Action (Machine D) ε (Except Unit Unit)) m (fun _ m' => Licenses nobody m m')
      fun _ _ => False := by
    refine Action.wp_attempt (wp_mono (configWrite_licenses address width m h)
      (fun _ _ hw => hw.2) fun e m' he => ?_)
    obtain ⟨⟨x, rfl⟩, hle⟩ := he
    exact ⟨x, rfl, hle⟩
  exact wp_bind hattempt (fun _ _ hw => wp_pure hw) fun _ _ => id

/-- A command register that is read and written back with no new bit. -/
theorem command_update {β : Type} {q : β → Prop} {address : FunctionAddress}
    (hpresent : present (D := D) address) {k : Nat → Action (Machine D) Unit β}
    (hk : ∀ command m, (command.testBit 2 = true → master m.bus address = true) →
      wp (k command) m (fun b m' => q b ∧ Licenses nobody m m')
        fun e m' => (∃ x, e = .err x) ∧ Licenses nobody m m') :
    Respects (Licenses nobody) q (configRead address 4 .word >>= k) := by
  intro m
  refine wp_bind (configRead_spec address 4 .word m) (fun command m₁ h => ?_)
    fun e m₁ h => ⟨h.1, h.2.1.licenses⟩
  have hbit : command.testBit 2 = true → master m₁.bus address = true := fun hbit =>
    (h.1.2 address id).trans (h.2 rfl rfl hpresent hbit)
  have hle := h.1.licenses
  refine wp_mono (hk command m₁ hbit) (fun b m₂ h₂ => ⟨h₂.1, ?_⟩) fun e m₂ h₂ => ⟨h₂.1, ?_⟩
  · exact IsTrans.trans _ _ _ hle h₂.2
  · exact IsTrans.trans _ _ _ hle h₂.2

theorem bumpBar_licenses (segment : Nat) (ctrl : Controller) {size : Nat} (hsize : size ≠ 0) :
    Respects (Licenses nobody) (fun _ => True)
      (bumpBar segment ctrl size : Action (Machine D) Unit Nat) := by
  intro m
  refine wp_mono (bumpBar_spec segment ctrl hsize m) (fun base m' h => ?_) fun e m' h => ?_
  · rw [h.2]
    exact ⟨trivial, rfl, fun _ _ => id⟩
  · rw [h.2]
    exact ⟨h.1, rfl, fun _ _ => id⟩

theorem assignBar_licenses {address : FunctionAddress} (hpresent : present (D := D) address)
    {bar : BarDescription} (hindex : bar.index < 6) :
    Respects (Licenses nobody) (fun _ => True)
      (assignBar address bar : Action (Machine D) Unit Nat) := by
  unfold assignBar
  split
  · exact Respects.fail
  rename_i hbar
  have hsize : bar.size ≠ 0 := fun hzero => hbar (.inr hzero)
  refine Respects.bind (p := fun _ => True) ?_ fun ctrl _ => ?_
  · unfold controller
    split
    · exact Respects.pure trivial
    · exact Respects.fail
  refine (licenses_lenient.currentBase address hindex).bind fun current _ => ?_
  refine Respects.bind (p := fun _ => True) ?_ fun base _ => ?_
  · unfold baseOf
    split
    · intro m
      exact Checked.wp_tryFrom (fun _ => ⟨trivial, rfl, fun _ _ => id⟩)
        ⟨⟨(), rfl⟩, rfl, fun _ _ => id⟩
    · refine (bumpBar_licenses _ _ hsize).bind fun base _ => ?_
      exact (licenses_lenient.placeBar address base hindex).bind fun _ _ => Respects.pure trivial
  · refine command_update hpresent fun command m hbit => ?_
    have hor : (command ||| 0x2).testBit 2 = true → command.testBit 2 = true := by
      rw [Nat.testBit_or, show Nat.testBit 0x2 2 = false from rfl, Bool.or_false]
      exact id
    refine wp_bind (configWriteAnyway_licenses address .word m fun _ h => hbit (hor h))
      (fun _ m' h => wp_pure ⟨trivial, h⟩) fun _ _ => False.elim

theorem enableIntxOutput_licenses {address : FunctionAddress}
    (hpresent : present (D := D) address) :
    Respects (Licenses nobody) (fun _ => True)
      (enableIntxOutput address : Action (Machine D) Unit Unit) := by
  refine command_update hpresent fun command m hbit => ?_
  refine configWrite_licenses address .word m fun _ h => hbit ?_
  rw [Nat.testBit_and, Bool.and_eq_true] at h
  exact h.1

/-- An address of a function that is there. -/
def Reachable (D : Type) [Bus D] [ConfigAccess D] [Board D] [LawfulPci D]
    (address : FunctionAddress) : Prop :=
  Valid D address ∧ present (D := D) address

/-- Only a function that is there answers with a vendor. -/
theorem functionPresent_spec (address : FunctionAddress) (m : Machine D) :
    wp (functionPresent address : Action (Machine D) ε Bool) m
      (fun answer m' => m'.history = m.history ∧ (answer = true → Reachable D address))
      fun _ _ => False := by
  have hfit : Fitting 0 .word := ⟨nofun, by decide, by decide⟩
  have hread : wp (configRead address 0 .word) m
      (fun vendor m' => m'.history = m.history ∧ (vendor ≠ 0xffff → Reachable D address))
      fun e m' => ∃ x, e = .err x ∧ m'.history = m.history := by
    rcases fitting_cases 0 .word
      (do mmioRead (← configAddress address 0) .word : Action (Machine D) Unit Nat)
      with ⟨-, hnot⟩ | ⟨hrun, -⟩
    · exact absurd hfit hnot
    have haccess : (configRead address 0 .word : Action (Machine D) Unit Nat) =
        (do mmioRead (← configAddress address 0) .word) := hrun
    rw [haccess]
    refine wp_bind (configAddress_spec address 0 m) (fun target m₁ h => ?_) fun e m₁ h => ?_
    · refine wp_of_ok rfl ⟨h.history, fun hvendor => ⟨h.valid, ?_⟩⟩
      exact LawfulPci.vendor _ _ _ _ h.valid h.mapped hvendor
    · obtain ⟨⟨x, rfl⟩, hspares, -⟩ := h
      exact ⟨x, rfl, hspares.1⟩
  unfold functionPresent
  refine wp_bind (q := fun r m' => m'.history = m.history ∧
    ∀ vendor, r = .ok vendor → vendor ≠ 0xffff → Reachable D address)
    (Action.wp_attempt (wp_mono hread (fun vendor m' h => ?_) fun e m' h => ?_))
    (fun r m' h => ?_) fun _ _ => id
  · exact ⟨h.1, fun v hv => Except.ok.inj hv ▸ h.2⟩
  · obtain ⟨x, rfl, hhistory⟩ := h
    exact ⟨x, rfl, hhistory, nofun⟩
  · cases r with
    | error e => exact wp_pure ⟨h.1, nofun⟩
    | ok vendor => exact wp_pure ⟨h.1, fun hvendor => h.2 vendor rfl (of_decide_eq_true hvendor)⟩

/-- The functions whose licence an enabled one needs: itself, and the root port that it
sits behind. -/
def Forwarding (D : Type) [Board D] (address f : FunctionAddress) : Prop :=
  f = address ∨ Board.rootPorts D = true ∧ address.bus ≠ 0 ∧ f = address.bridge

theorem configWrite_only (address : FunctionAddress) (width : AccessWidth) (value : Nat) :
    Respects (Licenses (only address)) (fun _ => True)
      (configWrite address 4 width value : Action (Machine D) Unit Unit) := fun m =>
  wp_mono (configWrite_spec address 4 width value m)
    (fun _ _ h => ⟨trivial, h.history, fun f hf hm => h.others rfl f hf ▸ hm⟩)
    fun _ _ h => ⟨h.1, (h.2.1.licenses).mono fun _ => False.elim⟩

/-- Granting a licence gives it to the function and, where it has one, its root port. -/
theorem setBusMaster_licenses (address : FunctionAddress) (enable : Bool) :
    Respects (Licenses (Forwarding D address)) (fun _ => True)
      (setBusMaster address enable : Action (Machine D) Unit Unit) := by
  have hread : ∀ f, Respects (Licenses (Forwarding D address)) (fun _ => True)
      (configRead f 4 .word : Action (Machine D) Unit Nat) := fun f =>
    (configRead_spares f 4 .word).weaken fun _ _ h => (h.licenses).mono fun _ => False.elim
  have hwrite : ∀ f value, Forwarding D address f →
      Respects (Licenses (Forwarding D address)) (fun _ => True)
        (configWrite f 4 .word value : Action (Machine D) Unit Unit) := fun f value hf =>
    (configWrite_only f .word value).weaken fun _ _ h => h.mono fun _ hg => hg ▸ hf
  unfold setBusMaster
  refine (hread address).bind fun command _ => ?_
  refine (hwrite address _ (.inl rfl)).bind fun _ _ => ?_
  split
  · rename_i hport
    refine (hread address.bridge).attempt.bind fun r _ => ?_
    cases r with
    | error e => exact Respects.pure trivial
    | ok bridgeCommand =>
      dsimp only
      split
      · unfold configWriteAnyway
        refine (hwrite address.bridge _ (.inr ⟨hport.1, hport.2.2, rfl⟩)).attempt.bind fun _ _ => ?_
        exact Respects.pure trivial
      · exact Respects.pure trivial
  · exact Respects.pure trivial

/-- Revoking a licence always works for a function that is there, and leaves the other
functions alone. -/
theorem setBusMaster_revokes {address : FunctionAddress} (h : Reachable D address)
    (m : Machine D) :
    wp (setBusMaster address false) m
      (fun _ m' => Spares (only address) m m' ∧ master m'.bus address = false)
      fun _ _ => False := by
  have hfit : Fitting 4 .word := ⟨nofun, by decide, by decide⟩
  unfold setBusMaster
  refine wp_bind (configRead_spec address 4 .word m) (fun command m₁ hr => ?_)
    fun e m₁ he => he.2.2 ⟨h.1, h.2, hfit⟩
  refine wp_bind (configWrite_spec address 4 .word _ m₁) (fun _ m₂ hw => ?_)
    fun e m₂ he => he.2.2 ⟨h.1, h.2, hfit⟩
  have hbit : (command &&& Checked.complement 64 0x4).testBit 2 = false := by
    rw [Nat.testBit_and, show (Checked.complement 64 0x4).testBit 2 = false by decide,
      Bool.and_false]
  rw [if_neg (by simp)]
  refine wp_pure ⟨⟨Eq.trans hw.history hr.1.1, fun f hf => ?_⟩, ?_⟩
  · exact Eq.trans (hw.others rfl f hf) (hr.1.2 f id)
  · rw [Bool.eq_false_iff]
    intro hset
    rcases hw.master address hset with ⟨-, -, hcarried⟩ | ⟨-, hnot⟩
    · rw [if_neg (by simp), hbit] at hcarried
      exact absurd hcarried nofun
    · exact hnot ⟨rfl, rfl⟩

/-- The licences of the given functions, and of no others, are gone. -/
structure Revokes (fs : FunctionAddress → Prop) (m m' : Machine D) : Prop where
  spares : Spares fs m m'
  clear : ∀ f, fs f → master m'.bus f = false

theorem Revokes.licenses (h : Revokes fs m m') :
    Licenses nobody m m' := by
  refine ⟨h.spares.1, fun f _ hset => ?_⟩
  by_cases hf : fs f
  · exact absurd ((h.clear f hf).symm.trans hset) nofun
  · exact (h.spares.2 f hf).symm.trans hset

/-- Two revocations, one after the other. -/
theorem Revokes.trans (h : Revokes fs m m') (h' : Revokes gs m' m'') :
    Revokes (fun f => fs f ∨ gs f) m m'' where
  spares := IsTrans.trans _ _ _ (h.spares.mono fun _ => Or.inl) (h'.spares.mono fun _ => Or.inr)
  clear := by
    intro f hf
    by_cases hg : gs f
    · exact h'.clear f hg
    · exact (h'.spares.2 f hg).trans (h.clear f (hf.resolve_right hg))

theorem Revokes.congr (h : Revokes fs m m') (heq : ∀ f, fs f ↔ gs f) : Revokes gs m m' :=
  (funext fun f => propext (heq f) : fs = gs) ▸ h

theorem Revokes.refl (h : ∀ f, ¬ fs f) : Revokes fs m m :=
  ⟨Std.Refl.refl m, fun f hf => absurd hf (h f)⟩

/-- A handle is dropped. -/
theorem revoke_spec {device : OpenDevice} (h : Reachable D device.address) (m : Machine D) :
    wp (revoke device : Action (Machine D) ε Unit) m
      (fun _ m' => Revokes (fun f => device.address = f ∧ device.busMasterEnabled = true) m m')
      fun _ _ => False := by
  unfold revoke
  split
  · rename_i hon
    refine wp_bind (q := fun _ m' => Revokes (only device.address) m m') (Action.wp_attempt
      (wp_mono (setBusMaster_revokes h m) (fun _ _ hr => ?_) fun _ _ => False.elim))
      (fun _ m' hr => ?_) fun _ _ => id
    · exact ⟨hr.1, fun f hf => hf ▸ hr.2⟩
    · exact wp_pure (hr.congr fun f => ⟨fun hf => ⟨hf.symm, hon⟩, fun hf => hf.1.symm⟩)
  · rename_i hoff
    exact wp_pure (Revokes.refl fun f hf => hoff hf.2)

/-- The functions that a table of handles is for. -/
def Held (devices : Slots OpenDevice) (f : FunctionAddress) : Prop :=
  ∃ device, some device ∈ devices ∧ device.address = f

/-- The licence of a function was granted through a handle of the table. -/
def Armed (devices : Slots OpenDevice) (f : FunctionAddress) : Prop :=
  ∃ device, some device ∈ devices ∧ device.address = f ∧ device.busMasterEnabled = true

/-- The handles of a task are quiesced: no function that was armed through one keeps its
licence, and no other function is touched. -/
theorem quiesceDevices_spec {devices : Slots OpenDevice}
    (h : ∀ f, Held devices f → Reachable D f) (m : Machine D) :
    wp (quiesceDevices devices : Action (Machine D) ε (Slots OpenDevice)) m
      (fun devices' m' => Revokes (Armed devices) m m' ∧
        devices' = devices.map (Option.map fun device => { device with busMasterEnabled := false }))
      fun _ _ => False := by
  induction devices generalizing m with
  | nil => exact wp_pure ⟨Revokes.refl fun f hf => by simp [Armed] at hf, rfl⟩
  | cons slot rest ih =>
    have hrest : ∀ f, Held rest f → Reachable D f := fun f ⟨device, hd, hf⟩ =>
      h f ⟨device, List.mem_cons_of_mem _ hd, hf⟩
    cases slot with
    | none =>
      refine wp_bind (ih hrest m) (fun devices' m' hq => ?_) fun _ _ => id
      exact wp_pure ⟨hq.1.congr fun f => by simp [Armed], hq.2 ▸ rfl⟩
    | some device =>
      refine wp_bind (revoke_spec (h _ ⟨device, List.mem_cons_self, rfl⟩) m)
        (fun _ m₁ hr => ?_) fun _ _ => id
      refine wp_bind (ih hrest m₁) (fun devices' m' hq => ?_) fun _ _ => id
      exact wp_pure ⟨(hr.trans hq.1).congr fun f => by simp [Armed, or_and_right, exists_or],
        hq.2 ▸ rfl⟩

end Eo9.Kernel.Pci
