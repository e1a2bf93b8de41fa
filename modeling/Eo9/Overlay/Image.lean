import Mathlib.Data.List.Dedup
import Eo9.Overlay.Provider

/-!
# A read-only filesystem

A fixed tree as a provider of the interface: paths are walked one directory at a time, and every
mutation is refused. It is lawful in every state, whatever the tree.
-/

namespace Eo9.Overlay

/-- A file with its bytes, or a directory with its entries. -/
inductive Node where
  | file (data : List UInt8)
  | directory (entries : List (String × Node))

namespace Node

/-- The node at a path: what lies below a file is no directory, what is missing is not found. -/
def lookup : Node → List String → Except FsError Node
  | node, [] => .ok node
  | .file _, _ :: _ => .error .notADirectory
  | .directory entries, name :: rest =>
    match entries.lookup name with
    | some node => node.lookup rest
    | none => .error .notFound

def names : Node → Except FsError (List String)
  | .file _ => .error .notADirectory
  | .directory entries => .ok (entries.map Prod.fst).dedup

def stat : Node → NodeStat
  | .file data => ⟨.file, UInt64.ofNat data.length⟩
  | .directory _ => ⟨.directory, 0⟩

def fileData : Node → Except FsError (List UInt8)
  | .file data => .ok data
  | .directory _ => .error .isADirectory

/-- A path and one more name. -/
theorem lookup_append (node : Node) (d : List String) (name : String) :
    node.lookup (d ++ [name]) = (node.lookup d).bind fun found => found.lookup [name] := by
  induction d generalizing node with
  | nil => rfl
  | cons first d ih =>
    cases node with
    | file data => rfl
    | directory entries =>
      rw [List.cons_append, lookup, lookup]
      cases entries.lookup first with
      | some found => exact ih found
      | none => rfl

end Node

/-- The bytes at an offset, as many as the buffer holds. -/
def readAt (data : List UInt8) (offset : UInt64) (dst : Buffer) : Buffer × Except FsError UInt64 :=
  let chunk := (data.drop offset.toNat).take dst.length
  (chunk ++ dst.drop chunk.length, .ok (UInt64.ofNat chunk.length))

/-- The read-only filesystem of a tree. -/
def Layer.image : Layer (List String) String where
  State := Node
  File := List UInt8
  ImmutableHandle := List UInt8
  «open» root path options :=
    (if options.write || options.create || options.truncate then .error .readOnly
      else (root.lookup path).bind Node.fileData, root)
  openExec root path := ((root.lookup path).bind Node.fileData, root)
  listDirectory root path := ((root.lookup path).bind Node.names, root)
  stat root path := ((root.lookup path).map Node.stat, root)
  createDirectory root _ := (.error .readOnly, root)
  remove root _ := (.error .readOnly, root)
  read root data offset dst := (readAt data offset dst, root)
  write root _ _ src := ((src, .error .readOnly), root)
  execSize _ data := UInt64.ofNat data.length
  execRead root data offset dst := (readAt data offset dst, root)

section Lawful

variable {root : Node} {path : List String}

theorem mem_names_iff {node : Node} {names : List String} (h : node.names = .ok names)
    (name : String) : name ∈ names ↔ ∃ found, node.lookup [name] = .ok found := by
  cases node with
  | file data => cases h
  | directory entries =>
    obtain rfl := Except.ok.inj h
    rw [List.mem_dedup, Node.lookup]
    cases hentry : entries.lookup name with
    | some found =>
      constructor
      · intro _
        exact ⟨found, rfl⟩
      · intro _
        obtain ⟨l, r, rfl, -⟩ := List.lookup_eq_some_iff.mp hentry
        simp
    | none =>
      constructor
      · intro hmem
        obtain ⟨entry, hentry', rfl⟩ := List.mem_map.mp hmem
        have hnone := List.lookup_eq_none_iff.mp hentry entry hentry'
        simp at hnone
      · rintro ⟨found, hfound⟩
        cases hfound

theorem image_exists_iff : Layer.image.Exists root path ↔ ∃ node, root.lookup path = .ok node := by
  unfold Layer.Exists Layer.image
  dsimp only
  cases root.lookup path with
  | ok node => simp [Except.map]
  | error e => simp [Except.map]

theorem image_names {names : List String}
    (h : (Layer.image.listDirectory root path).1 = .ok names) :
    ∃ node, root.lookup path = .ok node ∧ node.names = .ok names := by
  change (root.lookup path).bind Node.names = .ok names at h
  cases hnode : root.lookup path with
  | ok node =>
    rw [hnode] at h
    exact ⟨node, rfl, h⟩
  | error e =>
    rw [hnode] at h
    cases h

/-- A read-only filesystem shows one tree. -/
theorem image_lawful (root : Node) : Layer.image.Lawful (fun d name => d ++ [name]) root where
  list_iff d := by
    change (∃ names, (root.lookup d).bind Node.names = .ok names) ↔
      ∃ size, (root.lookup d).map Node.stat = .ok ⟨.directory, size⟩
    cases root.lookup d with
    | error e => simp [Except.map, Except.bind]
    | ok node =>
      cases node with
      | file data => simp [Except.map, Except.bind, Node.names, Node.stat]
      | directory entries => simp [Except.map, Except.bind, Node.names, Node.stat]
  nodup d names h := by
    obtain ⟨node, -, hnames⟩ := image_names h
    cases node with
    | file data => cases hnames
    | directory entries =>
      obtain rfl := Except.ok.inj hnames
      exact List.nodup_dedup _
  mem_iff d names h name := by
    obtain ⟨node, hnode, hnames⟩ := image_names h
    rw [mem_names_iff hnames, image_exists_iff, Node.lookup_append, hnode]
    rfl
  parent d name h := by
    obtain ⟨found, hfound⟩ := image_exists_iff.mp h
    rw [Node.lookup_append] at hfound
    change ∃ names, (root.lookup d).bind Node.names = .ok names
    cases hnode : root.lookup d with
    | error e =>
      rw [hnode] at hfound
      cases hfound
    | ok node =>
      rw [hnode] at hfound
      cases node with
      | file data => cases hfound
      | directory entries => exact ⟨_, rfl⟩
  file path size h := by
    change (root.lookup path).map Node.stat = .ok ⟨.file, size⟩ at h
    change ∃ f, (root.lookup path).bind Node.fileData = .ok f
    cases hnode : root.lookup path with
    | error e =>
      rw [hnode] at h
      cases h
    | ok node =>
      rw [hnode] at h
      cases node with
      | file data => exact ⟨data, rfl⟩
      | directory entries => cases Except.ok.inj h
  absent path h := by
    change (root.lookup path).map Node.stat = .error .notFound at h
    change (root.lookup path).bind Node.fileData = .error .notFound
    cases hnode : root.lookup path with
    | error e =>
      rw [hnode] at h
      obtain rfl := Except.error.inj h
      rfl
    | ok node =>
      rw [hnode] at h
      cases h

/-- A read-only filesystem never changes. -/
theorem image_guarded : Layer.image.Guarded (fun root => root) where
  «open» _ _ _ _ _ _ := rfl
  openExec _ _ := rfl
  listDirectory _ _ := rfl
  stat _ _ := rfl
  read _ _ _ _ := rfl
  execRead _ _ _ _ := rfl
  write _ _ _ _ _ _ _ _ _ := rfl

end Lawful

end Eo9.Overlay
