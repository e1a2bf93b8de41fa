import Mathlib.Logic.Relation
import Eo9.Overlay.Image

/-!
# One tree out of two layers

A stat and an open fall through on not-found only, a listing on every error. So the overlay
shows one tree exactly when, wherever the lower layer has something, the upper layer has
something too or answers not-found. No operation changes what is in the upper layer.
-/

namespace Eo9.Overlay

variable {Path Name : Type} {U L : Layer Path Name}

section FallThrough

variable {α β γ : Type} {up : U.State → Except FsError α × U.State}
  {low : L.State → Except FsError β × L.State} {ofUpper : α → γ} {ofLower : β → γ}
  {s : Layers U L}

theorem fallThrough_ok {a : α} (h : (up s.upper).1 = .ok a) :
    (fallThrough up low ofUpper ofLower s).1 = .ok (ofUpper a) := by
  unfold fallThrough
  dsimp only
  rw [h]

theorem fallThrough_notFound (h : (up s.upper).1 = .error .notFound) :
    (fallThrough up low ofUpper ofLower s).1 = (low s.lower).1.map ofLower := by
  unfold fallThrough
  dsimp only
  rw [h]

theorem fallThrough_error {e : FsError} (he : e ≠ .notFound) (h : (up s.upper).1 = .error e) :
    (fallThrough up low ofUpper ofLower s).1 = .error e := by
  unfold fallThrough
  dsimp only
  rw [h]
  cases e with
  | notFound => exact absurd rfl he
  | _ => rfl

/-- The upper layer is asked once. -/
theorem fallThrough_upper : (fallThrough up low ofUpper ofLower s).2.upper = (up s.upper).2 := by
  unfold fallThrough
  dsimp only
  split <;> rfl

/-- There is a result from above, or not-found above and a result from below. -/
theorem fallThrough_ok_iff {c : γ} : (fallThrough up low ofUpper ofLower s).1 = .ok c ↔
    (∃ a, (up s.upper).1 = .ok a ∧ ofUpper a = c) ∨
      ((up s.upper).1 = .error .notFound ∧ ∃ b, (low s.lower).1 = .ok b ∧ ofLower b = c) := by
  cases h : (up s.upper).1 with
  | ok a =>
    rw [fallThrough_ok h]
    simp
  | error e =>
    by_cases he : e = .notFound
    · subst he
      rw [fallThrough_notFound h]
      cases (low s.lower).1 with
      | ok b => simp [Except.map]
      | error e => simp [Except.map]
    · rw [fallThrough_error he h]
      simp [he]

end FallThrough

section Union

variable [DecidableEq Name]

theorem mem_union {up low : List Name} {name : Name} :
    name ∈ union up low ↔ name ∈ up ∨ name ∈ low := by
  induction low generalizing up with
  | nil => simp [union]
  | cons first low ih =>
    have hstep : union up (first :: low) =
        union (if first ∈ up then up else up ++ [first]) low := rfl
    rw [hstep, ih]
    by_cases hfirst : first ∈ up
    · rw [if_pos hfirst, List.mem_cons]
      constructor
      · rintro (h | h)
        · exact .inl h
        · exact .inr (.inr h)
      · rintro (h | rfl | h)
        · exact .inl h
        · exact .inl hfirst
        · exact .inr h
    · rw [if_neg hfirst, List.mem_append, List.mem_singleton, List.mem_cons, or_assoc]

theorem nodup_union {up low : List Name} (h : up.Nodup) : (union up low).Nodup := by
  induction low generalizing up with
  | nil => exact h
  | cons first low ih =>
    have hstep : union up (first :: low) =
        union (if first ∈ up then up else up ++ [first]) low := rfl
    rw [hstep]
    by_cases hfirst : first ∈ up
    · rw [if_pos hfirst]
      exact ih h
    · rw [if_neg hfirst]
      apply ih
      apply List.Nodup.append h (List.nodup_singleton first)
      rw [List.disjoint_singleton]
      exact hfirst

end Union

section Tree

variable [DecidableEq Name] {child : Path → Name → Path} {s : Layers U L}

/-- The listing of a directory names a path's last part exactly once. -/
def ListedOnce (s : Layers U L) (d : Path) (name : Name) : Prop :=
  ∃ names, (listDirectory s d).1 = .ok names ∧ names.count name = 1

/-- One consistent tree, each path of it from one layer. -/
structure Consistent (child : Path → Name → Path) (s : Layers U L) : Prop where
  listed : ∀ d name, ListedOnce s d name ↔ ∃ st, (stat s (child d name)).1 = .ok st
  upper_directory : ∀ path size, (statOf s path).1 = .ok (.inl ⟨.directory, size⟩) →
    ∃ up names, (U.listDirectory s.upper path).1 = .ok up ∧
      (listDirectory s path).1 = .ok names ∧ up ⊆ names
  lower_directory : ∀ path size, (statOf s path).1 = .ok (.inr ⟨.directory, size⟩) →
    ∃ low names, (L.listDirectory s.lower path).1 = .ok low ∧
      (listDirectory s path).1 = .ok names ∧ low ⊆ names
  upper_file : ∀ path size, (statOf s path).1 = .ok (.inl ⟨.file, size⟩) →
    ∃ f, («open» s path .forReading).1 = .ok (.upper f)
  lower_file : ∀ path size, (statOf s path).1 = .ok (.inr ⟨.file, size⟩) →
    ∃ f, («open» s path .forReading).1 = .ok (.lower f)

/-- Wherever the lower layer has something, the upper layer has something or answers
not-found. -/
def Unblocked (child : Path → Name → Path) (s : Layers U L) : Prop :=
  ∀ d name, L.Exists s.lower (child d name) →
    U.Exists s.upper (child d name) ∨ (U.stat s.upper (child d name)).1 = .error .notFound

theorem stat_ok_iff {path : Path} : (∃ st, (stat s path).1 = .ok st) ↔
    U.Exists s.upper path ∨
      ((U.stat s.upper path).1 = .error .notFound ∧ L.Exists s.lower path) := by
  constructor
  · rintro ⟨st, hst⟩
    rcases fallThrough_ok_iff.mp hst with ⟨a, ha, -⟩ | ⟨hnone, b, hb, -⟩
    · exact .inl ⟨a, ha⟩
    · exact .inr ⟨hnone, b, hb⟩
  · rintro (⟨a, ha⟩ | ⟨hnone, b, hb⟩)
    · exact ⟨a, fallThrough_ok_iff.mpr (.inl ⟨a, ha, rfl⟩)⟩
    · exact ⟨b, fallThrough_ok_iff.mpr (.inr ⟨hnone, b, hb, rfl⟩)⟩

theorem statOf_inl {path : Path} {st : NodeStat} (h : (statOf s path).1 = .ok (.inl st)) :
    (U.stat s.upper path).1 = .ok st := by
  rcases fallThrough_ok_iff.mp h with ⟨a, ha, heq⟩ | ⟨-, b, -, heq⟩
  · obtain rfl := Sum.inl.inj heq
    exact ha
  · cases heq

theorem statOf_inr {path : Path} {st : NodeStat} (h : (statOf s path).1 = .ok (.inr st)) :
    (U.stat s.upper path).1 = .error .notFound ∧ (L.stat s.lower path).1 = .ok st := by
  rcases fallThrough_ok_iff.mp h with ⟨a, -, heq⟩ | ⟨hnone, b, hb, heq⟩
  · cases heq
  · obtain rfl := Sum.inr.inj heq
    exact ⟨hnone, hb⟩

theorem open_forReading (path : Path) : «open» s path .forReading =
    fallThrough (U.«open» · path .forReading) (L.«open» · path .forReading) OverlayFile.upper
      OverlayFile.lower s := rfl

/-- A listing succeeds when one of the layers lists the path, and names what they name. -/
theorem listDirectory_spec (hU : U.Lawful child s.upper) (hL : L.Lawful child s.lower)
    (d : Path) :
    (∃ names, (listDirectory s d).1 = .ok names ∧ names.Nodup ∧ ∀ name, name ∈ names ↔
        U.Exists s.upper (child d name) ∨ L.Exists s.lower (child d name)) ∨
      ((∀ names, (U.listDirectory s.upper d).1 ≠ .ok names) ∧
        (∀ names, (L.listDirectory s.lower d).1 ≠ .ok names) ∧
          ∀ names, (listDirectory s d).1 ≠ .ok names) := by
  unfold listDirectory
  dsimp only
  cases hup : (U.listDirectory s.upper d).1 with
  | ok up =>
    have hupper := hU.mem_iff d up hup
    have hnodup := hU.nodup d up hup
    cases hlow : (L.listDirectory s.lower d).1 with
    | ok low =>
      refine .inl ⟨_, rfl, nodup_union hnodup, ?_⟩
      intro name
      rw [mem_union, hupper name, hL.mem_iff d low hlow name]
    | error e =>
      refine .inl ⟨_, rfl, hnodup, ?_⟩
      intro name
      rw [hupper name]
      constructor
      · exact .inl
      · rintro (h | h)
        · exact h
        · obtain ⟨low, hok⟩ := hL.parent d name h
          rw [hlow] at hok
          cases hok
  | error e =>
    have hupper : ∀ name, ¬ U.Exists s.upper (child d name) := by
      intro name h
      obtain ⟨up, hok⟩ := hU.parent d name h
      rw [hup] at hok
      cases hok
    cases hlow : (L.listDirectory s.lower d).1 with
    | ok low =>
      refine .inl ⟨_, rfl, hL.nodup d low hlow, ?_⟩
      intro name
      rw [hL.mem_iff d low hlow name]
      exact (or_iff_right (hupper name)).symm
    | error e => exact .inr ⟨nofun, nofun, nofun⟩

theorem listedOnce_iff (hU : U.Lawful child s.upper) (hL : L.Lawful child s.lower)
    (d : Path) (name : Name) : ListedOnce s d name ↔
      U.Exists s.upper (child d name) ∨ L.Exists s.lower (child d name) := by
  unfold ListedOnce
  rcases listDirectory_spec hU hL d with ⟨names, hok, hnodup, hmem⟩ | ⟨hup, hlow, hnone⟩
  · rw [← hmem name]
    constructor
    · rintro ⟨names', hok', hcount⟩
      obtain rfl := Except.ok.inj (hok.symm.trans hok')
      exact List.count_pos_iff.mp (by omega)
    · intro hin
      exact ⟨names, hok, List.count_eq_one_of_mem hnodup hin⟩
  · constructor
    · rintro ⟨names, hok, -⟩
      exact absurd hok (hnone names)
    · rintro (h | h)
      · obtain ⟨names, hok⟩ := hU.parent d name h
        exact absurd hok (hup names)
      · obtain ⟨names, hok⟩ := hL.parent d name h
        exact absurd hok (hlow names)

theorem listDirectory_superset {path : Path} (hU : U.Lawful child s.upper)
    (hL : L.Lawful child s.lower) :
    (∀ up, (U.listDirectory s.upper path).1 = .ok up →
      ∃ names, (listDirectory s path).1 = .ok names ∧ up ⊆ names) ∧
    ∀ low, (L.listDirectory s.lower path).1 = .ok low →
      ∃ names, (listDirectory s path).1 = .ok names ∧ low ⊆ names := by
  rcases listDirectory_spec hU hL path with ⟨names, hok, -, hmem⟩ | ⟨hup, hlow, -⟩
  · constructor
    · intro up hup
      refine ⟨names, hok, ?_⟩
      intro name hname
      exact (hmem name).mpr (.inl ((hU.mem_iff path up hup name).mp hname))
    · intro low hlow
      refine ⟨names, hok, ?_⟩
      intro name hname
      exact (hmem name).mpr (.inr ((hL.mem_iff path low hlow name).mp hname))
  · exact ⟨fun up h => absurd h (hup up), fun low h => absurd h (hlow low)⟩

/-- The overlay of two trees is one tree exactly where the upper layer does not block. -/
theorem consistent_iff (hU : U.Lawful child s.upper) (hL : L.Lawful child s.lower) :
    Consistent child s ↔ Unblocked child s := by
  constructor
  · intro h d name hlower
    have hlisted := (listedOnce_iff hU hL d name).mpr (.inr hlower)
    have hstat := stat_ok_iff.mp ((h.listed d name).mp hlisted)
    exact hstat.imp_right And.left
  · intro h
    constructor
    · intro d name
      rw [listedOnce_iff hU hL, stat_ok_iff]
      constructor
      · rintro (hup | hlow)
        · exact .inl hup
        · exact (h d name hlow).imp_right fun hnone => ⟨hnone, hlow⟩
      · exact Or.imp_right And.right
    · intro path size hst
      obtain ⟨up, hup⟩ := (hU.list_iff path).mpr ⟨size, statOf_inl hst⟩
      obtain ⟨names, hnames, hsub⟩ := (listDirectory_superset hU hL).1 up hup
      exact ⟨up, names, hup, hnames, hsub⟩
    · intro path size hst
      obtain ⟨low, hlow⟩ := (hL.list_iff path).mpr ⟨size, (statOf_inr hst).2⟩
      obtain ⟨names, hnames, hsub⟩ := (listDirectory_superset hU hL).2 low hlow
      exact ⟨low, names, hlow, hnames, hsub⟩
    · intro path size hst
      obtain ⟨f, hf⟩ := hU.file path size (statOf_inl hst)
      rw [open_forReading]
      exact ⟨f, fallThrough_ok hf⟩
    · intro path size hst
      obtain ⟨hnone, hst⟩ := statOf_inr hst
      obtain ⟨f, hf⟩ := hL.file path size hst
      rw [open_forReading, fallThrough_notFound (hU.absent path hnone), hf]
      exact ⟨f, rfl⟩

end Tree

section Upper

variable [DecidableEq Name] {C : Type} {content : U.State → C}

/-- A file of the upper layer was opened without the write flag. -/
def ReadOnlyFiles (s : Session U L) : Prop :=
  ∀ inner, OverlayFile.upper inner ∈ s.files →
    ∃ state path, ∃ options : OpenFlags, options.write = false ∧
      (U.«open» state path options).1 = .ok inner

theorem not_isWrite {options : OpenFlags} (h : ¬ isWrite options = true) :
    options.write = false ∧ options.create = false ∧ options.truncate = false := by
  simp only [isWrite, Bool.or_eq_true, not_or, Bool.not_eq_true] at h
  exact ⟨h.1.1, h.1.2, h.2⟩

theorem open_upper {s : Layers U L} {path : Path} {options : OpenFlags} {inner : U.File}
    (h : («open» s path options).1 = .ok (.upper inner)) :
    options.write = false ∧ (U.«open» s.upper path options).1 = .ok inner := by
  unfold «open» at h
  by_cases hwrite : isWrite options = true
  · rw [if_pos hwrite] at h
    dsimp only at h
    cases hopen : (L.«open» s.lower path options).1 with
    | ok f =>
      rw [hopen] at h
      cases Except.ok.inj h
    | error e =>
      rw [hopen] at h
      cases h
  · rw [if_neg hwrite] at h
    rcases fallThrough_ok_iff.mp h with ⟨f, hf, heq⟩ | ⟨-, f, -, heq⟩
    · obtain rfl := OverlayFile.upper.inj heq
      exact ⟨(not_isWrite hwrite).1, hf⟩
    · cases heq

/-- One operation changes nothing in the upper layer, and opens its files for reading only. -/
theorem Step.upper (hguarded : U.Guarded content) {s s' : Session U L} (h : Step s s')
    (hfiles : ReadOnlyFiles s) :
    content s'.layers.upper = content s.layers.upper ∧ ReadOnlyFiles s' := by
  cases h with
  | «open» path options =>
    constructor
    · unfold Overlay.«open»
      by_cases hwrite : isWrite options = true
      · rw [if_pos hwrite]
      · obtain ⟨hw, hc, ht⟩ := not_isWrite hwrite
        rw [if_neg hwrite, fallThrough_upper]
        exact hguarded.«open» _ path options hw hc ht
    · intro inner hinner
      rcases List.mem_append.mp hinner with hnew | hold
      · have hok : (Overlay.«open» s.layers path options).1 = .ok (.upper inner) := by
          cases hopen : (Overlay.«open» s.layers path options).1 with
          | ok f =>
            rw [hopen] at hnew
            rw [List.mem_singleton.mp hnew]
          | error e =>
            rw [hopen] at hnew
            cases hnew
        obtain ⟨hwrite, hopen⟩ := open_upper hok
        exact ⟨_, path, options, hwrite, hopen⟩
      · exact hfiles inner hold
  | openExec path =>
    refine ⟨?_, hfiles⟩
    dsimp only
    rw [Overlay.openExec, fallThrough_upper]
    exact hguarded.openExec _ path
  | listDirectory path => exact ⟨hguarded.listDirectory _ path, hfiles⟩
  | stat path =>
    refine ⟨?_, hfiles⟩
    dsimp only
    rw [Overlay.stat, fallThrough_upper]
    exact hguarded.stat _ path
  | createDirectory path => exact ⟨rfl, hfiles⟩
  | remove path => exact ⟨rfl, hfiles⟩
  | @read f hf offset dst =>
    refine ⟨?_, hfiles⟩
    cases f with
    | upper inner => exact hguarded.read _ inner offset dst
    | lower inner => rfl
  | @write f hf offset src =>
    refine ⟨?_, hfiles⟩
    cases f with
    | upper inner =>
      obtain ⟨state, path, options, hwrite, hopen⟩ := hfiles inner hf
      exact hguarded.write state path options inner hwrite hopen _ offset src
    | lower inner => rfl
  | @execRead h hh offset dst =>
    refine ⟨?_, hfiles⟩
    cases h with
    | upper inner => exact hguarded.execRead _ inner offset dst
    | lower inner => rfl

/-- No run of operations changes anything in the upper layer. -/
theorem run_upper (hguarded : U.Guarded content) {s s' : Session U L}
    (h : Relation.ReflTransGen Step s s') (hfiles : ReadOnlyFiles s) :
    content s'.layers.upper = content s.layers.upper ∧ ReadOnlyFiles s' := by
  induction h with
  | refl => exact ⟨rfl, hfiles⟩
  | tail _ hstep ih =>
    obtain ⟨hcontent, hfiles'⟩ := ih
    obtain ⟨hcontent', hfiles''⟩ := hstep.upper hguarded hfiles'
    exact ⟨hcontent'.trans hcontent, hfiles''⟩

end Upper

/-- The overlay shows one tree where the upper layer does not block, and leaves the upper layer
alone. -/
theorem overlay_consistent [DecidableEq Name] (U L : Layer Path Name)
    (child : Path → Name → Path) :
    (∀ s : Layers U L, U.Lawful child s.upper → L.Lawful child s.lower →
      (Consistent child s ↔ Unblocked child s)) ∧
    ∀ (C : Type) (content : U.State → C), U.Guarded content →
      ∀ (layers : Layers U L) (s : Session U L),
        Relation.ReflTransGen Step ⟨layers, [], []⟩ s →
          content s.layers.upper = content layers.upper := by
  constructor
  · intro s hU hL
    exact consistent_iff hU hL
  · intro C content hguarded layers s hrun
    have hfiles : ReadOnlyFiles (⟨layers, [], []⟩ : Session U L) := by
      intro inner hinner
      cases hinner
    exact (run_upper hguarded hrun hfiles).1

/-- A directory with a file in it. -/
def dataTree : Node := .directory [("a", .directory [("n", .file [1, 2])])]

/-- Over an empty upper layer, with a file that is opened. -/
theorem overlay_consistent_empty :
    Consistent (U := .image) (L := .image) (fun d name => d ++ [name])
        ⟨.directory [], dataTree⟩ ∧
      ∀ s : Session .image .image,
        Relation.ReflTransGen Step ⟨⟨Node.directory [], dataTree⟩, [], []⟩ s →
          s.layers.upper = Node.directory [] := by
  constructor
  · apply ((overlay_consistent Layer.image Layer.image fun d name => d ++ [name]).1 _
      (image_lawful _) (image_lawful _)).mpr
    intro d name _
    cases d with
    | nil => exact .inr rfl
    | cons first d => exact .inr rfl
  · intro s hrun
    exact (overlay_consistent Layer.image Layer.image fun d name => d ++ [name]).2 Node
      (fun root => root) image_guarded _ s hrun

/-- Under a file of the upper layer the entries of a lower directory are listed, and a stat of them
fails. -/
theorem shadowed_listed :
    (listDirectory (U := .image) (L := .image)
        ⟨.directory [("a", .file [])], dataTree⟩ ["a"]).1 = .ok ["n"] ∧
      (stat (U := .image) (L := .image)
        ⟨.directory [("a", .file [])], dataTree⟩ ["a", "n"]).1 = .error .notADirectory ∧
      ¬ Consistent (U := .image) (L := .image) (fun d name => d ++ [name])
        ⟨.directory [("a", .file [])], dataTree⟩ := by
  have hlist : (listDirectory (U := .image) (L := .image)
      ⟨.directory [("a", .file [])], dataTree⟩ ["a"]).1 = .ok ["n"] := by rfl
  have hstat : (stat (U := .image) (L := .image)
      ⟨.directory [("a", .file [])], dataTree⟩ ["a", "n"]).1 = .error .notADirectory := by rfl
  refine ⟨hlist, hstat, ?_⟩
  intro h
  obtain ⟨st, hst⟩ := (h.listed ["a"] "n").mp ⟨["n"], hlist, by decide⟩
  cases hstat.symm.trans hst

end Eo9.Overlay
