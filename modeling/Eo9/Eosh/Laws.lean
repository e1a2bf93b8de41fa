import Eo9.Eosh.Comb

/-!
# Laws of stepping

The equations of `step`, with a reference stepping as what it builds, and the
induction they allow: what holds of a parser as soon as it holds of its parts,
of the right sides its left side can finish into, and of what its references
build, holds of every parser.
-/

namespace Eo9.Eosh

variable {Nt : Type → Type} {α β : Type}

open Productions (build)

section Induction

variable {motive : ∀ {α : Type}, Parser Nt α → Prop}

theorem Parser.induct (pure : ∀ {α : Type} (v : α), motive (Parser.pure v))
    (map : ∀ {α β : Type} (p : Parser Nt α) (f : α → β), motive p → motive (p.map f))
    (bind : ∀ {α β : Type} (p : Parser Nt α) (f : α → Parser Nt β), motive p →
      (∀ a, motive (f a)) → motive (p.bind f))
    (bound : ∀ {α : Type} (p : Parser Nt α), motive p → motive p.bound)
    (oneOf : ∀ {α : Type} (bs : Branches Nt α), (∀ p ∈ bs.toList, motive p) →
      motive (Parser.oneOf bs))
    (lazy : ∀ {α : Type} (n : Nt α), motive (Parser.lazy n))
    (leaf : ∀ {α : Type} (l : Leaf α), motive (Parser.leaf l)) :
    ∀ {α : Type} (p : Parser Nt α), motive p :=
  fun {α} p =>
    @Parser.rec Nt (fun _ p => motive p) (fun _ bs => ∀ p ∈ bs.toList, motive p)
      pure map bind bound oneOf lazy leaf
      (fun _ h => absurd h List.not_mem_nil)
      (fun _ _ hp hrest q hq => (List.mem_cons.mp hq).elim (fun h => h ▸ hp) (hrest q)) α p

end Induction

theorem Leaf.step_of_consumes {l : Leaf α} (h : l.Consumes) (i : Input) (v : α) :
    l.step i ≠ some (.finish v) := by
  cases l with
  | fail => exact nofun
  | lit rest =>
    cases rest with
    | nil => exact absurd rfl h
    | cons b rest =>
      cases i with
      | byte c =>
        simp only [Leaf.step, Lit.step]
        split <;> simp
      | _ => exact nofun
  | kw word pos tag =>
    have hne : pos ≠ word.length := Nat.ne_of_lt h
    cases i with
    | byte b =>
      simp only [Leaf.step, Kw.step, if_neg hne]
      split <;> simp
    | eof => simp [Leaf.step, Kw.step, hne]
    | text b => exact nofun
  | overlay alive pos =>
    cases i with
    | byte b =>
      simp only [Leaf.step, Overlay.step]
      split
      · simp
      · split <;> simp
    | _ => exact nofun
  | capWord word bytes =>
    have hfin : word.finishable = false := by
      simp only [Leaf.Consumes] at h
      simp [Word.finishable, h]
    cases i with
    | eof => simp [Leaf.step, CapWord.step, Word.stepCore, hfin]
    | text b => simp [Leaf.step, CapWord.step, Word.stepCore]
    | byte b =>
      simp only [Leaf.step, CapWord.step, Word.stepCore, hfin]
      split_ifs <;> simp_all
  | capQuoted state text =>
    cases i <;> cases state <;> simp_all [Leaf.step, CapQuoted.step, Leaf.Consumes]
    all_goals split_ifs <;> simp
  | capCompound state text =>
    simp only [Leaf.Consumes] at h
    cases i <;> simp [Leaf.step, CapCompound.step, h]
  | ws => exact absurd h id
  | commentRest => exact absurd h id

namespace Branches

theorem consumes_iff : ∀ bs : Branches Nt α, bs.Consumes ↔ ∀ p ∈ bs.toList, p.Consumes
  | .nil => by simp [Consumes, toList]
  | .cons p rest => by simp [Consumes, toList, consumes_iff rest]

theorem guarded_iff : ∀ bs : Branches Nt α, bs.Guarded ↔ ∀ p ∈ bs.toList, p.Guarded
  | .nil => by simp [Guarded, toList]
  | .cons p rest => by simp [Guarded, toList, guarded_iff rest]

end Branches

namespace Parser

theorem consumes_alt {ps : List (Parser Nt α)} : (alt ps).Consumes ↔ ∀ p ∈ ps, p.Consumes := by
  unfold alt
  split
  · exact List.forall_mem_singleton.symm
  · rw [Parser.Consumes, Branches.consumes_iff, Branches.toList_ofList]

theorem guarded_alt {ps : List (Parser Nt α)} : (alt ps).Guarded ↔ ∀ p ∈ ps, p.Guarded := by
  unfold alt
  split
  · exact List.forall_mem_singleton.symm
  · rw [Parser.Guarded, Branches.guarded_iff, Branches.toList_ofList]

@[simp] theorem value_wrapP2 (rhs : Step Nt β) (left : Option (Parser Nt β)) :
    (wrapP2 rhs left).value = rhs.value := by
  cases rhs <;> cases left <;> rfl

@[simp] theorem finished_wrapP2 (rhs : Step Nt β) (left : Option (Parser Nt β)) :
    (wrapP2 rhs left).finished = rhs.finished := by
  cases rhs <;> cases left <;> rfl

end Parser

/-- The branches step as a list: the first finisher and the continuing ones. -/
theorem Branches.stepWith_eq (call : CallStep Nt) (i : Input) : ∀ bs : Branches Nt α,
    (bs.stepWith call i).1 = bs.toList.findSome? (fun p =>
        (p.stepWith call i).bind Step.finished) ∧
      (bs.stepWith call i).2.toList = bs.toList.filterMap (fun p =>
        (p.stepWith call i).bind Step.cont)
  | .nil => ⟨rfl, rfl⟩
  | .cons p rest => by
    obtain ⟨hdone, hconts⟩ := Branches.stepWith_eq call i rest
    rw [Branches.stepWith, Branches.toList, List.findSome?_cons, List.filterMap_cons]
    cases hp : p.stepWith call i with
    | none => exact ⟨hdone, hconts⟩
    | some r =>
      cases r with
      | done v rej => exact ⟨rfl, hconts⟩
      | «continue» c => exact ⟨hdone, congrArg (c :: ·) hconts⟩
      | both v rej c => exact ⟨rfl, congrArg (c :: ·) hconts⟩

/-- A step from what it finishes with and how it goes on. -/
def Step.ofParts : Option (α × Input) → Option (Parser Nt α) → Option (Step Nt α)
  | none, none => none
  | some (v, rej), none => some (.done v rej)
  | none, some p => some (.continue p)
  | some (v, rej), some p => some (.both v rej p)

theorem Step.value_ofParts (d : Option (α × Input)) (q : Option (Parser Nt α)) :
    (Step.ofParts d q).bind Step.value = d.map (·.1) := by
  rcases d with _ | ⟨v, rej⟩ <;> cases q <;> rfl

theorem Step.cont_ofParts (d : Option (α × Input)) (q : Option (Parser Nt α)) :
    (Step.ofParts d q).bind Step.cont = q := by
  rcases d with _ | ⟨v, rej⟩ <;> cases q <;> rfl

/-- The alternation that goes on, if any branch does. -/
def Parser.alive (ps : List (Parser Nt α)) : Option (Parser Nt α) :=
  match ps with
  | [] => none
  | ps => some (.alt ps)

theorem Parser.stepWith_oneOf (call : CallStep Nt) (i : Input) (bs : Branches Nt α) :
    (Parser.oneOf bs).stepWith call i =
      Step.ofParts
        (bs.toList.findSome? fun p => (p.stepWith call i).bind Step.finished)
        (Parser.alive (bs.toList.filterMap fun p => (p.stepWith call i).bind Step.cont)) := by
  obtain ⟨hdone, hconts⟩ := Branches.stepWith_eq call i bs
  rw [← hdone, ← hconts, Parser.stepWith]
  rcases bs.stepWith call i with ⟨done, conts⟩
  rcases done with _ | ⟨v, rej⟩ <;> cases conts <;> rfl

namespace Parser

theorem value_of_consumes (call : CallStep Nt) {p : Parser Nt α} (h : p.Consumes) {i : Input}
    {r : Step Nt α} (hr : p.stepWith call i = some r) : r.value = none := by
  induction p using Parser.induct generalizing i with
  | pure v => exact absurd h id
  | map p f ih =>
    rw [stepWith] at hr
    cases hp : p.stepWith call i with
    | none => rw [hp] at hr; cases hr
    | some q =>
      have hq := ih h hp
      rw [hp] at hr
      cases q <;> cases hr
      · cases hq
      · rfl
      · cases hq
  | bind p f ihp ihf =>
    rw [stepWith] at hr
    cases hp : p.stepWith call i with
    | none => rw [hp] at hr; cases hr
    | some q =>
      rw [hp] at hr
      cases q with
      | done v rej =>
        rcases h with h | h
        · cases ihp h hp
        · obtain ⟨rhs, hrhs, rfl⟩ := Option.map_eq_some_iff.mp hr
          rw [value_wrapP2]
          exact ihf v (h v) hrhs
      | «continue» c =>
        cases hr
        rfl
      | both v rej c =>
        rcases h with h | h
        · cases ihp h hp
        · cases hrhs : (f v).stepWith call rej with
          | none =>
            simp only [hrhs] at hr
            cases hr
            rfl
          | some rhs =>
            simp only [hrhs] at hr
            cases hr
            rw [value_wrapP2]
            exact ihf v (h v) hrhs
  | bound p ih =>
    rw [stepWith] at hr
    obtain ⟨rhs, hrhs, rfl⟩ := Option.map_eq_some_iff.mp hr
    rw [value_wrapP2]
    exact ih h hrhs
  | oneOf bs ih =>
    rw [stepWith_oneOf] at hr
    have hnone : bs.toList.findSome? (fun p => (p.stepWith call i).bind Step.finished) = none := by
      apply List.findSome?_eq_none_iff.mpr
      intro p hp
      cases hq : p.stepWith call i with
      | none => rfl
      | some q =>
        have hv := ih p hp ((Branches.consumes_iff bs).mp h p hp) hq
        cases q <;> first | rfl | cases hv
    rw [hnone] at hr
    cases halive : alive (bs.toList.filterMap fun p => (p.stepWith call i).bind Step.cont) with
    | none => rw [halive] at hr; cases hr
    | some q => rw [halive] at hr; cases hr; rfl
  | lazy n => exact absurd h id
  | leaf l =>
    rw [stepWith, leafStep] at hr
    obtain ⟨s, hs, rfl⟩ := Option.map_eq_some_iff.mp hr
    cases s with
    | finish v => exact absurd hs (Leaf.step_of_consumes h i v)
    | advance next => rfl

/-- A guarded parser meets no reference in one step. -/
theorem stepWith_of_guarded (call call' : CallStep Nt) {p : Parser Nt α} (h : p.Guarded)
    (i : Input) : p.stepWith call i = p.stepWith call' i := by
  induction p using Parser.induct generalizing i with
  | pure v => rfl
  | map p f ih => rw [stepWith, stepWith, ih h]
  | bind p f ihp ihf =>
    rw [stepWith, stepWith, ihp h.1]
    cases hp : p.stepWith call' i with
    | none => rfl
    | some q =>
      rcases h.2 with hc | hg
      · have hv := value_of_consumes call' hc hp
        cases q with
        | «continue» c => rfl
        | _ => cases hv
      · cases q with
        | done v rej => simp only [ihf v (hg v) rej]
        | «continue» c => rfl
        | both v rej c => simp only [ihf v (hg v) rej]
  | bound p ih => rw [stepWith, stepWith, ih h]
  | oneOf bs ih =>
    have heq : ∀ p ∈ bs.toList, p.stepWith call i = p.stepWith call' i :=
      fun p hp => ih p hp ((Branches.guarded_iff bs).mp h p hp) i
    rw [stepWith_oneOf, stepWith_oneOf]
    congr 1
    · rw [← List.head?_filterMap, ← List.head?_filterMap]
      exact congrArg _ (List.filterMap_congr fun p hp => by rw [heq p hp])
    · congr 1
      exact List.filterMap_congr fun p hp => by rw [heq p hp]
  | lazy n => exact absurd h id
  | leaf l => rfl

end Parser

namespace Parser

variable [Productions Nt]

def valueAt (p : Parser Nt α) (i : Input) : Option α := (p.step i).bind Step.value

/-- How a parser goes on after an input. -/
def nextAt (p : Parser Nt α) (i : Input) : Option (Parser Nt α) := (p.step i).bind Step.cont

theorem step_lazy (n : Nt α) (i : Input) : (lazy n : Parser Nt α).step i = (build n).step i :=
  stepWith_of_guarded _ callStep (Productions.guarded n) i

/-- What holds of what a parser is made of, of the right sides that its left
sides finish into and of what its references build, holds of the parser. -/
theorem inductStep {motive : ∀ {α : Type}, Parser Nt α → Prop}
    (pure : ∀ {α : Type} (v : α), motive (Parser.pure v))
    (map : ∀ {α β : Type} (p : Parser Nt α) (f : α → β), motive p → motive (p.map f))
    (bind : ∀ {α β : Type} (p : Parser Nt α) (f : α → Parser Nt β), motive p →
      (∀ i a, p.valueAt i = some a → motive (f a)) → motive (p.bind f))
    (bound : ∀ {α : Type} (p : Parser Nt α), motive p → motive p.bound)
    (oneOf : ∀ {α : Type} (bs : Branches Nt α), (∀ p ∈ bs.toList, motive p) →
      motive (Parser.oneOf bs))
    (lazy : ∀ {α : Type} (n : Nt α), motive (build n) → motive (Parser.lazy n))
    (leaf : ∀ {α : Type} (l : Leaf α), motive (Parser.leaf l)) :
    ∀ {α : Type} (p : Parser Nt α), motive p := by
  have hguarded : ∀ {α : Type} (p : Parser Nt α), p.Guarded → motive p := by
    intro α p
    induction p using Parser.induct with
    | pure v => exact fun _ => pure v
    | map p f ih => exact fun h => map p f (ih h)
    | bind p f ihp ihf =>
      intro h
      apply bind p f (ihp h.1)
      intro i a ha
      obtain ⟨r, hr, ha⟩ := Option.bind_eq_some_iff.mp ha
      rcases h.2 with hc | hg
      · rw [value_of_consumes callStep hc hr] at ha
        cases ha
      · exact ihf a (hg a)
    | bound p ih => exact fun h => bound p (ih h)
    | oneOf bs ih => exact fun h => oneOf bs fun p hp => ih p hp ((Branches.guarded_iff bs).mp h p hp)
    | lazy n => exact fun h => absurd h id
    | leaf l => exact fun _ => leaf l
  intro α p
  induction p using Parser.induct with
  | pure v => exact pure v
  | map p f ih => exact map p f ih
  | bind p f ihp ihf => exact bind p f ihp fun _ a _ => ihf a
  | bound p ih => exact bound p ih
  | oneOf bs ih => exact oneOf bs ih
  | lazy n => exact lazy n (hguarded (build n) (Productions.guarded n))
  | leaf l => exact leaf l

/-- A parser hands back the input it was given. -/
theorem finished_step (p : Parser Nt α) (i : Input) :
    (p.step i).bind Step.finished = (p.valueAt i).map fun v => (v, i) := by
  induction p using Parser.inductStep generalizing i with
  | pure v => rfl
  | map p f ih =>
    have hp := ih i
    simp only [valueAt, step, stepWith] at hp ⊢
    cases hq : p.stepWith callStep i with
    | none => rfl
    | some q =>
      rw [hq] at hp
      cases q with
      | «continue» c => rfl
      | done v rej =>
        cases hp
        rfl
      | both v rej c =>
        cases hp
        rfl
  | bind p f ihp ihf =>
    have hp := ihp i
    simp only [valueAt, step, stepWith] at hp ⊢
    cases hq : p.stepWith callStep i with
    | none => rfl
    | some q =>
      rw [hq] at hp
      cases q with
      | «continue» c => rfl
      | done v rej =>
        cases hp
        have hf := ihf i v (by rw [valueAt, step, hq]; rfl) i
        simp only [valueAt, step] at hf
        cases hr : (f v).stepWith callStep i with
        | none => simp only [hr]; rfl
        | some rhs =>
          rw [hr] at hf
          simpa [hr] using hf
      | both v rej c =>
        cases hp
        have hf := ihf i v (by rw [valueAt, step, hq]; rfl) i
        simp only [valueAt, step] at hf
        cases hr : (f v).stepWith callStep i with
        | none => simp only [hr]; rfl
        | some rhs =>
          rw [hr] at hf
          simpa [hr] using hf
  | bound p ih =>
    have hp := ih i
    simp only [valueAt, step, stepWith] at hp ⊢
    cases hq : p.stepWith callStep i with
    | none => rfl
    | some q =>
      rw [hq] at hp
      simpa using hp
  | oneOf bs ih =>
    have hfin : ∀ p ∈ bs.toList, ∀ v rej, (p.step i).bind Step.finished = some (v, rej) →
        rej = i := by
      intro p hp v rej h
      rw [ih p hp i] at h
      obtain ⟨w, -, hw⟩ := Option.map_eq_some_iff.mp h
      exact (Prod.mk.inj hw).2.symm
    simp only [valueAt, step] at hfin ⊢
    rw [stepWith_oneOf]
    cases hdone : bs.toList.findSome? fun p => (p.stepWith callStep i).bind Step.finished with
    | none =>
      cases alive (bs.toList.filterMap fun p => (p.stepWith callStep i).bind Step.cont) <;> rfl
    | some d =>
      obtain ⟨v, rej⟩ := d
      obtain ⟨p, hp, hv⟩ := List.exists_of_findSome?_eq_some hdone
      obtain rfl := hfin p hp v rej hv
      cases alive (bs.toList.filterMap fun p => (p.stepWith callStep rej).bind Step.cont) <;> rfl
  | lazy n ih =>
    simp only [valueAt, step_lazy]
    exact ih i
  | leaf l =>
    simp only [valueAt, step, stepWith, leafStep]
    cases l.step i with
    | none => rfl
    | some s => cases s <;> rfl

/-- A step is its value and how it goes on. -/
theorem step_eq (p : Parser Nt α) (i : Input) :
    p.step i = Step.ofParts ((p.valueAt i).map fun v => (v, i)) (p.nextAt i) := by
  rw [← finished_step, nextAt]
  cases p.step i with
  | none => rfl
  | some r => cases r <;> rfl

/-- The inputs handed back in a step are the input of the step. -/
theorem rejected_eq {p : Parser Nt α} {i : Input} {r : Step Nt α} (hr : p.step i = some r)
    {v : α} {rej : Input} (h : r.finished = some (v, rej)) : rej = i := by
  have hfin := finished_step p i
  rw [hr, Option.bind_some, h] at hfin
  obtain ⟨w, -, hw⟩ := Option.map_eq_some_iff.mp hfin.symm
  exact (Prod.mk.inj hw).2.symm

@[simp] theorem valueAt_pure (v : α) (i : Input) : (pure v : Parser Nt α).valueAt i = some v := rfl

@[simp] theorem nextAt_pure (v : α) (i : Input) : (pure v : Parser Nt α).nextAt i = none := rfl

@[simp] theorem valueAt_map (p : Parser Nt α) (f : α → β) (i : Input) :
    (p.map f).valueAt i = (p.valueAt i).map f := by
  simp only [valueAt, step, stepWith]
  cases p.stepWith callStep i with
  | none => rfl
  | some r => cases r <;> rfl

@[simp] theorem nextAt_map (p : Parser Nt α) (f : α → β) (i : Input) :
    (p.map f).nextAt i = (p.nextAt i).map fun q => q.map f := by
  simp only [nextAt, step, stepWith]
  cases p.stepWith callStep i with
  | none => rfl
  | some r => cases r <;> rfl

@[simp] theorem valueAt_bound (p : Parser Nt α) (i : Input) : p.bound.valueAt i = p.valueAt i := by
  simp only [valueAt, step, stepWith]
  cases p.stepWith callStep i with
  | none => rfl
  | some r => cases r <;> rfl

@[simp] theorem nextAt_bound (p : Parser Nt α) (i : Input) :
    p.bound.nextAt i = (p.nextAt i).map bound := by
  simp only [nextAt, step, stepWith]
  cases p.stepWith callStep i with
  | none => rfl
  | some r => cases r <;> rfl

@[simp] theorem valueAt_lazy (n : Nt α) (i : Input) :
    (lazy n : Parser Nt α).valueAt i = (build n).valueAt i := by
  rw [valueAt, step_lazy, valueAt]

@[simp] theorem nextAt_lazy (n : Nt α) (i : Input) :
    (lazy n : Parser Nt α).nextAt i = (build n).nextAt i := by
  rw [nextAt, step_lazy, nextAt]

theorem valueAt_oneOf (bs : Branches Nt α) (i : Input) :
    (oneOf bs).valueAt i = bs.toList.findSome? fun p => p.valueAt i := by
  rw [valueAt, step, stepWith_oneOf, Step.value_ofParts, ← List.head?_filterMap, ← List.head?_filterMap,
    ← List.head?_map, List.map_filterMap]
  refine congrArg _ (List.filterMap_congr fun p _ => ?_)
  have h := finished_step p i
  rw [step] at h
  rw [h, Option.map_map]
  cases p.valueAt i <;> rfl

theorem nextAt_oneOf (bs : Branches Nt α) (i : Input) :
    (oneOf bs).nextAt i = alive (bs.toList.filterMap fun p => p.nextAt i) := by
  rw [nextAt, step, stepWith_oneOf, Step.cont_ofParts]
  rfl

@[simp] theorem valueAt_alt (ps : List (Parser Nt α)) (i : Input) :
    (alt ps).valueAt i = ps.findSome? fun p => p.valueAt i := by
  unfold alt
  split
  · rename_i p
    rw [List.findSome?_cons]
    cases p.valueAt i <;> rfl
  · rw [valueAt_oneOf, Branches.toList_ofList]

@[simp] theorem nextAt_alt (ps : List (Parser Nt α)) (i : Input) :
    (alt ps).nextAt i = alive (ps.filterMap fun p => p.nextAt i) := by
  unfold alt
  split
  · rename_i p
    rw [List.filterMap_cons]
    cases p.nextAt i <;> rfl
  · rw [nextAt_oneOf, Branches.toList_ofList]

/-- The input is looked at by both sides of a bind. -/
@[simp] theorem valueAt_bind (p : Parser Nt α) (f : α → Parser Nt β) (i : Input) :
    (p.bind f).valueAt i = (p.valueAt i).bind fun a => (f a).valueAt i := by
  rw [valueAt, valueAt, step, step, stepWith]
  cases hq : p.stepWith callStep i with
  | none => rfl
  | some q =>
    cases q with
    | «continue» c => rfl
    | done v rej =>
      obtain rfl := rejected_eq (p := p) hq rfl
      change (Option.map _ _).bind _ = ((f v).step rej).bind _
      rw [step]
      cases (f v).stepWith callStep rej with
      | none => rfl
      | some rhs => exact value_wrapP2 rhs none
    | both v rej c =>
      obtain rfl := rejected_eq (p := p) hq rfl
      change _ = ((f v).step rej).bind _
      rw [step]
      cases hr : (f v).stepWith callStep rej with
      | none => simp only [hr]; rfl
      | some rhs =>
        simp only [hr]
        exact value_wrapP2 rhs _

/-- A bind goes on with its left side, and with the right side its left side
finishes into. -/
@[simp] theorem nextAt_bind (p : Parser Nt α) (f : α → Parser Nt β) (i : Input) :
    (p.bind f).nextAt i =
      alive (((p.nextAt i).map fun q => q.bind f).toList ++
        (((p.valueAt i).bind fun a => (f a).nextAt i).map bound).toList) := by
  rw [nextAt, nextAt, valueAt, step, step, stepWith]
  cases hq : p.stepWith callStep i with
  | none => rfl
  | some q =>
    cases q with
    | «continue» c => rfl
    | done v rej =>
      obtain rfl := rejected_eq (p := p) hq rfl
      change (Option.map _ _).bind _ = alive ([] ++ (Option.map _ ((f v).nextAt rej)).toList)
      rw [nextAt, step]
      cases (f v).stepWith callStep rej with
      | none => rfl
      | some rhs => cases rhs <;> rfl
    | both v rej c =>
      obtain rfl := rejected_eq (p := p) hq rfl
      change _ = alive ([c.bind f] ++ (Option.map _ ((f v).nextAt rej)).toList)
      rw [nextAt, step]
      cases hr : (f v).stepWith callStep rej with
      | none => simp only [hr]; rfl
      | some rhs =>
        simp only [hr]
        cases rhs <;> rfl

end Parser

def Leaf.valueAt (l : Leaf α) (i : Input) : Option α :=
  match l.step i with
  | some (.finish v) => some v
  | _ => none

/-- How a leaf goes on. -/
def Leaf.nextAt (l : Leaf α) (i : Input) : Option (Leaf α) :=
  match l.step i with
  | some (.advance next) => some next
  | _ => none

namespace Parser

variable [Productions Nt]

@[simp] theorem valueAt_leaf (l : Leaf α) (i : Input) :
    (leaf l : Parser Nt α).valueAt i = l.valueAt i := by
  simp only [valueAt, step, stepWith, leafStep, Leaf.valueAt]
  cases l.step i with
  | none => rfl
  | some s => cases s <;> rfl

@[simp] theorem nextAt_leaf (l : Leaf α) (i : Input) :
    (leaf l : Parser Nt α).nextAt i = (l.nextAt i).map leaf := by
  simp only [nextAt, step, stepWith, leafStep, Leaf.nextAt]
  cases l.step i with
  | none => rfl
  | some s => cases s <;> rfl

end Parser

end Eo9.Eosh
