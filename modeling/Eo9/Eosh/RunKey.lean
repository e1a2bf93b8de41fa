import Eo9.Eosh.Ast
import Eo9.Library.SelfDelimiting

/-!
# The keys of the image cache

The run keys of `cache.rs`: the tree of an expression as text, with `let` bindings
replaced by the key that was frozen when they were bound, and the programs of
`/bin` tagged with their generations. Against them stands the composition that an
expression denotes at a point of the session, as a tree.

A key shows where it ends and which tree it was made from, whatever the names and
texts in it.
-/

namespace Eo9.Eosh

open Eo9.Library

/-- `net`. -/
def net (text : Str) : Str := decimal text.length ++ ch ':' :: text

/-- A structure tag and what is in its parentheses. -/
def tagged (tag : Char) (body : Str) : Str := ch tag :: ch '(' :: (body ++ [ch ')'])

def bracketed (entries : List Str) : Str := ch '[' :: (joined (ch ',') entries ++ [ch ']'])

/-- A program of `/bin`, with the generations that it is looked up at. -/
def binKey (name : Str) (globalGen nameGen : ℕ) : Str :=
  tagged 'B' (net name ++ ch '@' :: (decimal globalGen ++ ch '.' :: decimal nameGen))

/-- What the keys of a session are made from. -/
structure SessionCache where
  globalGen : ℕ
  nameGens : Str → Option ℕ
  bindingKeys : Str → Option Str
  nextUnique : ℕ
  disabled : Bool

namespace SessionCache

def new : SessionCache := ⟨0, fun _ => none, fun _ => none, 0, false⟩

mutual

def canon (cache : SessionCache) : Expr → Str
  | .name name =>
    match cache.bindingKeys name with
    | some frozen => frozen
    | none => binKey name cache.globalGen ((cache.nameGens name).getD 0)
  | .app callee args =>
    tagged 'A' (cache.canon callee ++ ch ';' :: joined (ch ',') (cache.canonArgs args))
  | .compose provider consumer =>
    tagged 'C' (cache.canon provider ++ ch ',' :: cache.canon consumer)
  | .extend base layer => tagged 'X' (cache.canon base ++ ch ',' :: cache.canon layer)
  | .only allow body =>
    tagged 'O' (bracketed (allow.map net) ++ ch ',' :: cache.canon body)
  | .rename source target body =>
    tagged 'R' (net source ++ ch ',' :: (net target ++ ch ',' :: cache.canon body))
  | .with bindings body =>
    tagged 'W' (bracketed (cache.canonBindings bindings) ++ ch ',' :: cache.canon body)

def canonArg (cache : SessionCache) : Arg → Str
  | .flag name value => tagged 'F' (net name ++ ch ',' :: cache.canonValue value)
  | .positional value => tagged 'P' (cache.canonValue value)

def canonValue (cache : SessionCache) : ArgValue → Str
  | .word text => ch 'w' :: net text
  | .quoted text => ch 'q' :: net text
  | .expr expr => tagged 'e' (cache.canon expr)

def canonArgs (cache : SessionCache) : List Arg → List Str
  | [] => []
  | arg :: rest => cache.canonArg arg :: cache.canonArgs rest

def canonBindings (cache : SessionCache) : List WithBinding → List Str
  | [] => []
  | .mk provider slot :: rest =>
    (net slot ++ ch '=' :: cache.canon provider) :: cache.canonBindings rest

end

/-- The key for running an expression, or `none` when caching is off. -/
def runKey (cache : SessionCache) (expr : Expr) (hasEnvironment : Bool) : Option Str :=
  if cache.disabled then none
  else
    let env := if hasEnvironment then ascii "env" else ascii "noenv"
    some (cache.canon expr ++ ch '|' :: env)

/-- Freeze the key of a new `let` binding. -/
def recordBinding (cache : SessionCache) (name : Str) (expr : Expr) : SessionCache :=
  if cache.disabled then
    let unique := cache.nextUnique + 1
    { cache with
      nextUnique := unique
      bindingKeys := fun n => if n = name then some (tagged 'U' (decimal unique)) else cache.bindingKeys n }
  else
    let key := cache.canon expr
    { cache with bindingKeys := fun n => if n = name then some key else cache.bindingKeys n }

/-- The session wrote `/bin/<name>.wasm`. -/
def noteBinWrite (cache : SessionCache) (name : Str) : SessionCache :=
  { cache with
    nameGens := fun n => if n = name then some ((cache.nameGens n).getD 0 + 1) else cache.nameGens n }

/-- A program that imports the file system has run. -/
def noteFsRun (cache : SessionCache) : SessionCache :=
  { cache with globalGen := cache.globalGen + 1 }

/-- Caching is off for the rest of the session. -/
def disable (cache : SessionCache) : SessionCache := { cache with disabled := true }

end SessionCache

/-- What a session tells its cache. -/
inductive CacheEvent where
  | recordBinding (name : Str) (expr : Expr)
  | noteBinWrite (name : Str)
  | noteFsRun
  | disable

def SessionCache.after (cache : SessionCache) : CacheEvent → SessionCache
  | .recordBinding name expr => cache.recordBinding name expr
  | .noteBinWrite name => cache.noteBinWrite name
  | .noteFsRun => cache.noteFsRun
  | .disable => cache.disable

/-- The cache of a session with this history. -/
def SessionCache.ofHistory (history : List CacheEvent) : SessionCache :=
  history.foldl SessionCache.after .new

mutual

/-- A composition of programs of `/bin` at given generations, without names of the
session. -/
inductive Composition where
  | bin (name : Str) (globalGen nameGen : ℕ)
  | app (callee : Composition) (args : List GivenArg)
  | compose (provider consumer : Composition)
  | extend (base layer : Composition)
  | only (allow : List Str) (body : Composition)
  | rename (source target : Str) (body : Composition)
  | «with» (bindings : List GivenBinding) (body : Composition)

inductive GivenBinding where
  | mk (provider : Composition) (slot : Str)

inductive GivenArg where
  | flag (name : Str) (value : GivenValue)
  | positional (value : GivenValue)

inductive GivenValue where
  -- a word is text here: a line whose word is taken as a program is never remembered
  | word (text : Str)
  | quoted (text : Str)
  | expr (composition : Composition)

end

/-- A point of a session: the generations, and what the bound names stand for. -/
structure SessionPoint where
  globalGen : ℕ
  nameGens : Str → ℕ
  bound : Str → Option Composition

namespace SessionPoint

def start : SessionPoint := ⟨0, fun _ => 0, fun _ => none⟩

mutual

/-- What an expression denotes: each bound name is replaced by what it was bound to. -/
def denotes (point : SessionPoint) : Expr → Composition
  | .name name =>
    match point.bound name with
    | some composition => composition
    | none => .bin name point.globalGen (point.nameGens name)
  | .app callee args => .app (point.denotes callee) (point.denotesArgs args)
  | .compose provider consumer => .compose (point.denotes provider) (point.denotes consumer)
  | .extend base layer => .extend (point.denotes base) (point.denotes layer)
  | .only allow body => .only allow (point.denotes body)
  | .rename source target body => .rename source target (point.denotes body)
  | .with bindings body => .with (point.denotesBindings bindings) (point.denotes body)

def denotesArg (point : SessionPoint) : Arg → GivenArg
  | .flag name value => .flag name (point.denotesValue value)
  | .positional value => .positional (point.denotesValue value)

def denotesValue (point : SessionPoint) : ArgValue → GivenValue
  | .word text => .word text
  | .quoted text => .quoted text
  | .expr expr => .expr (point.denotes expr)

def denotesArgs (point : SessionPoint) : List Arg → List GivenArg
  | [] => []
  | arg :: rest => point.denotesArg arg :: point.denotesArgs rest

def denotesBindings (point : SessionPoint) : List WithBinding → List GivenBinding
  | [] => []
  | .mk provider slot :: rest => .mk (point.denotes provider) slot :: point.denotesBindings rest

end

def after (point : SessionPoint) : CacheEvent → SessionPoint
  | .recordBinding name expr =>
    { point with bound := fun n => if n = name then some (point.denotes expr) else point.bound n }
  | .noteBinWrite name =>
    { point with nameGens := fun n => if n = name then point.nameGens n + 1 else point.nameGens n }
  | .noteFsRun => { point with globalGen := point.globalGen + 1 }
  | .disable => point

def ofHistory (history : List CacheEvent) : SessionPoint := history.foldl after start

end SessionPoint

mutual

/-- The text that stands for a composition. -/
def Composition.key : Composition → Str
  | .bin name globalGen nameGen => binKey name globalGen nameGen
  | .app callee args => tagged 'A' (callee.key ++ ch ';' :: joined (ch ',') (GivenArg.keys args))
  | .compose provider consumer => tagged 'C' (provider.key ++ ch ',' :: consumer.key)
  | .extend base layer => tagged 'X' (base.key ++ ch ',' :: layer.key)
  | .only allow body => tagged 'O' (bracketed (allow.map net) ++ ch ',' :: body.key)
  | .rename source target body =>
    tagged 'R' (net source ++ ch ',' :: (net target ++ ch ',' :: body.key))
  | .with bindings body =>
    tagged 'W' (bracketed (GivenBinding.keys bindings) ++ ch ',' :: body.key)

def GivenBinding.key : GivenBinding → Str
  | .mk provider slot => net slot ++ ch '=' :: provider.key

def GivenArg.key : GivenArg → Str
  | .flag name value => tagged 'F' (net name ++ ch ',' :: value.key)
  | .positional value => tagged 'P' value.key

def GivenValue.key : GivenValue → Str
  | .word text => ch 'w' :: net text
  | .quoted text => ch 'q' :: net text
  | .expr composition => tagged 'e' composition.key

def GivenArg.keys : List GivenArg → List Str
  | [] => []
  | arg :: rest => arg.key :: GivenArg.keys rest

def GivenBinding.keys : List GivenBinding → List Str
  | [] => []
  | binding :: rest => binding.key :: GivenBinding.keys rest

end

theorem GivenArg.keys_eq (args : List GivenArg) : GivenArg.keys args = args.map GivenArg.key := by
  induction args with
  | nil => rfl
  | cons arg rest ih => rw [GivenArg.keys, List.map_cons, ih]

theorem GivenBinding.keys_eq (bindings : List GivenBinding) :
    GivenBinding.keys bindings = bindings.map GivenBinding.key := by
  induction bindings with
  | nil => rfl
  | cons binding rest ih => rw [GivenBinding.keys, List.map_cons, ih]

theorem net_eq : net = netstring := rfl

theorem tagged_append (tag : Char) (body s : Str) :
    tagged tag body ++ s = ch tag :: ch '(' :: (body ++ ch ')' :: s) := by
  simp [tagged]

theorem bracketed_append (entries : List Str) (s : Str) :
    bracketed entries ++ s = ch '[' :: (joined (ch ',') entries ++ ch ']' :: s) := by
  simp [bracketed]

/-- Behind equal tags the bodies are compared; different tags differ at once. -/
theorem tagged_inj {tag tag' : Char} {body body' s t : Str}
    (h : tagged tag body ++ s = tagged tag' body' ++ t) :
    ch tag = ch tag' ∧ body ++ ch ')' :: s = body' ++ ch ')' :: t := by
  rw [tagged_append, tagged_append] at h
  obtain ⟨htag, hrest⟩ := List.cons.inj h
  exact ⟨htag, (List.cons.inj hrest).2⟩

/-- Two parts with a symbol between them. -/
theorem delimits_then {α : Type} {enc : α → Str} {x y : α} (h : DelimitsAt enc x) {c : UInt8}
    {rest rest' s t : Str} (heq : (enc x ++ c :: rest) ++ s = (enc y ++ c :: rest') ++ t) :
    x = y ∧ rest ++ s = rest' ++ t := by
  rw [List.append_assoc, List.append_assoc] at heq
  obtain ⟨hxy, hrest⟩ := h y _ _ heq
  exact ⟨hxy, (List.cons.inj hrest).2⟩

theorem net_delimits (text : Str) : DelimitsAt net text := netstring_selfDelimiting text

theorem net_open (text : Str) {c : UInt8} (hc : ¬ (48 ≤ c ∧ c ≤ 57)) :
    net text ≠ [] ∧ (net text).head? ≠ some c :=
  ⟨netstring_ne_nil text, fun h => hc (netstring_head h)⟩

theorem bracketed_delimits {α : Type} {enc : α → Str} {xs ys : List α}
    (hopen : ∀ x, enc x ≠ [] ∧ (enc x).head? ≠ some (ch ']')) (hxs : ∀ x ∈ xs, DelimitsAt enc x)
    {s t : Str} (h : bracketed (xs.map enc) ++ s = bracketed (ys.map enc) ++ t) :
    xs = ys ∧ s = t := by
  rw [bracketed_append, bracketed_append] at h
  exact joined_delimits (by decide) hopen hxs (List.cons.inj h).2

theorem GivenBinding.key_open (binding : GivenBinding) :
    binding.key ≠ [] ∧ binding.key.head? ≠ some (ch ']') := by
  obtain ⟨provider, slot⟩ := binding
  have hdigit : ¬ (48 ≤ ch ']' ∧ ch ']' ≤ 57) := by decide
  obtain ⟨hne, hhead⟩ := net_open slot hdigit
  rw [GivenBinding.key]
  constructor
  · exact List.append_ne_nil_of_left_ne_nil hne _
  · rwa [List.head?_append_of_ne_nil _ hne]

theorem GivenArg.key_open (arg : GivenArg) :
    arg.key ≠ [] ∧ arg.key.head? ≠ some (ch ')') := by
  cases arg with
  | flag name value =>
    have hne : ch 'F' ≠ ch ')' := by decide
    exact ⟨List.cons_ne_nil _ _, fun h => hne (Option.some.inj h)⟩
  | positional value =>
    have hne : ch 'P' ≠ ch ')' := by decide
    exact ⟨List.cons_ne_nil _ _, fun h => hne (Option.some.inj h)⟩

theorem binKey_delimits {name name' : Str} {g g' n n' : ℕ} {s t : Str}
    (h : binKey name g n ++ s = binKey name' g' n' ++ t) :
    name = name' ∧ g = g' ∧ n = n' ∧ s = t := by
  obtain ⟨-, h⟩ := tagged_inj h
  obtain ⟨hname, h⟩ := delimits_then (net_delimits name) h
  rw [List.append_assoc, List.append_assoc] at h
  obtain ⟨hg, h⟩ := decimal_delimits (by decide) h
  obtain ⟨hn, hst⟩ := decimal_delimits (by decide) h
  exact ⟨hname, hg, hn, hst⟩

/-- The letter that a composition's key starts with. -/
def Composition.tag : Composition → Char
  | .bin _ _ _ => 'B'
  | .app _ _ => 'A'
  | .compose _ _ => 'C'
  | .extend _ _ => 'X'
  | .only _ _ => 'O'
  | .rename _ _ _ => 'R'
  | .with _ _ => 'W'

theorem Composition.key_tagged (c : Composition) : ∃ body, c.key = tagged c.tag body := by
  cases c <;> exact ⟨_, rfl⟩

/-- Different letters are different bytes. -/
theorem Composition.tag_of_key {x y : Composition} {s t : Str} (h : x.key ++ s = y.key ++ t) :
    x.tag = y.tag := by
  obtain ⟨body, hx⟩ := x.key_tagged
  obtain ⟨body', hy⟩ := y.key_tagged
  rw [hx, hy] at h
  have htag := (tagged_inj h).1
  clear hx hy h
  cases x <;> cases y <;> first | rfl | (simp only [tag] at htag; exact absurd htag (by decide))

mutual

/-- The key of a composition shows the composition and where the key ends. -/
theorem Composition.delimits : ∀ c : Composition, DelimitsAt Composition.key c
  | .bin name g n => by
    intro y s t h
    cases y with
    | bin name' g' n' =>
      obtain ⟨rfl, rfl, rfl, hst⟩ := binKey_delimits h
      exact ⟨rfl, hst⟩
    | _ => exact absurd (Composition.tag_of_key h) (by simp [Composition.tag])
  | .app callee args => by
    intro y s t h
    cases y with
    | app callee' args' =>
      obtain ⟨-, hbody⟩ := tagged_inj h
      obtain ⟨rfl, hclose⟩ := delimits_then (Composition.delimits callee) hbody
      rw [GivenArg.keys_eq, GivenArg.keys_eq] at hclose
      obtain ⟨rfl, hst⟩ := joined_delimits (by decide) GivenArg.key_open
        (GivenArg.all_delimits args) hclose
      exact ⟨rfl, hst⟩
    | _ => exact absurd (Composition.tag_of_key h) (by simp [Composition.tag])
  | .compose provider consumer => by
    intro y s t h
    cases y with
    | compose provider' consumer' =>
      obtain ⟨-, hbody⟩ := tagged_inj h
      obtain ⟨rfl, hrest⟩ := delimits_then (Composition.delimits provider) hbody
      obtain ⟨rfl, hclose⟩ := Composition.delimits consumer _ _ _ hrest
      exact ⟨rfl, (List.cons.inj hclose).2⟩
    | _ => exact absurd (Composition.tag_of_key h) (by simp [Composition.tag])
  | .extend base layer => by
    intro y s t h
    cases y with
    | extend base' layer' =>
      obtain ⟨-, hbody⟩ := tagged_inj h
      obtain ⟨rfl, hrest⟩ := delimits_then (Composition.delimits base) hbody
      obtain ⟨rfl, hclose⟩ := Composition.delimits layer _ _ _ hrest
      exact ⟨rfl, (List.cons.inj hclose).2⟩
    | _ => exact absurd (Composition.tag_of_key h) (by simp [Composition.tag])
  | .only allow body => by
    intro y s t h
    cases y with
    | only allow' body' =>
      obtain ⟨-, hbody⟩ := tagged_inj h
      rw [List.append_assoc, List.append_assoc] at hbody
      obtain ⟨rfl, hrest⟩ := bracketed_delimits (fun text => net_open text (by decide))
        (fun text _ => net_delimits text) hbody
      obtain ⟨rfl, hclose⟩ := Composition.delimits body _ _ _ (List.cons.inj hrest).2
      exact ⟨rfl, (List.cons.inj hclose).2⟩
    | _ => exact absurd (Composition.tag_of_key h) (by simp [Composition.tag])
  | .rename source target body => by
    intro y s t h
    cases y with
    | rename source' target' body' =>
      obtain ⟨-, hbody⟩ := tagged_inj h
      obtain ⟨rfl, hrest⟩ := delimits_then (net_delimits source) hbody
      obtain ⟨rfl, hrest'⟩ := delimits_then (net_delimits target) hrest
      obtain ⟨rfl, hclose⟩ := Composition.delimits body _ _ _ hrest'
      exact ⟨rfl, (List.cons.inj hclose).2⟩
    | _ => exact absurd (Composition.tag_of_key h) (by simp [Composition.tag])
  | .with bindings body => by
    intro y s t h
    cases y with
    | «with» bindings' body' =>
      obtain ⟨-, hbody⟩ := tagged_inj h
      rw [List.append_assoc, List.append_assoc, GivenBinding.keys_eq, GivenBinding.keys_eq] at hbody
      obtain ⟨rfl, hrest⟩ := bracketed_delimits GivenBinding.key_open
        (GivenBinding.all_delimits bindings) hbody
      obtain ⟨rfl, hclose⟩ := Composition.delimits body _ _ _ (List.cons.inj hrest).2
      exact ⟨rfl, (List.cons.inj hclose).2⟩
    | _ => exact absurd (Composition.tag_of_key h) (by simp [Composition.tag])

theorem GivenBinding.delimits : ∀ b : GivenBinding, DelimitsAt GivenBinding.key b
  | .mk provider slot => by
    intro y s t h
    obtain ⟨provider', slot'⟩ := y
    obtain ⟨rfl, hbody⟩ := delimits_then (net_delimits slot) h
    obtain ⟨rfl, hst⟩ := Composition.delimits provider _ _ _ hbody
    exact ⟨rfl, hst⟩

theorem GivenArg.delimits : ∀ a : GivenArg, DelimitsAt GivenArg.key a
  | .flag name value => by
    intro y s t h
    cases y with
    | flag name' value' =>
      obtain ⟨-, hbody⟩ := tagged_inj h
      obtain ⟨rfl, hrest⟩ := delimits_then (net_delimits name) hbody
      obtain ⟨rfl, hclose⟩ := GivenValue.delimits value _ _ _ hrest
      exact ⟨rfl, (List.cons.inj hclose).2⟩
    | positional value' => exact absurd (tagged_inj h).1 (by decide)
  | .positional value => by
    intro y s t h
    cases y with
    | flag name' value' => exact absurd (tagged_inj h).1 (by decide)
    | positional value' =>
      obtain ⟨-, hbody⟩ := tagged_inj h
      obtain ⟨rfl, hclose⟩ := GivenValue.delimits value _ _ _ hbody
      exact ⟨rfl, (List.cons.inj hclose).2⟩

theorem GivenValue.delimits : ∀ v : GivenValue, DelimitsAt GivenValue.key v
  | .word text => by
    intro y s t h
    cases y with
    | word text' =>
      obtain ⟨rfl, hst⟩ := net_delimits text _ _ _ (List.cons.inj h).2
      exact ⟨rfl, hst⟩
    | _ => exact absurd (List.cons.inj h).1 (by decide)
  | .quoted text => by
    intro y s t h
    cases y with
    | quoted text' =>
      obtain ⟨rfl, hst⟩ := net_delimits text _ _ _ (List.cons.inj h).2
      exact ⟨rfl, hst⟩
    | _ => exact absurd (List.cons.inj h).1 (by decide)
  | .expr composition => by
    intro y s t h
    cases y with
    | expr composition' =>
      obtain ⟨-, hbody⟩ := tagged_inj h
      obtain ⟨rfl, hclose⟩ := Composition.delimits composition _ _ _ hbody
      exact ⟨rfl, (List.cons.inj hclose).2⟩
    | _ => exact absurd (List.cons.inj h).1 (by decide)

theorem GivenArg.all_delimits : ∀ args : List GivenArg, ∀ a ∈ args, DelimitsAt GivenArg.key a
  | [] => fun _ h => absurd h List.not_mem_nil
  | arg :: rest => by
    have hfirst := GivenArg.delimits arg
    have hrest := GivenArg.all_delimits rest
    exact List.forall_mem_cons.mpr ⟨hfirst, hrest⟩

theorem GivenBinding.all_delimits : ∀ bindings : List GivenBinding, ∀ b ∈ bindings,
    DelimitsAt GivenBinding.key b
  | [] => fun _ h => absurd h List.not_mem_nil
  | binding :: rest => by
    have hfirst := GivenBinding.delimits binding
    have hrest := GivenBinding.all_delimits rest
    exact List.forall_mem_cons.mpr ⟨hfirst, hrest⟩

end

theorem Composition.key_selfDelimiting : SelfDelimiting Composition.key := Composition.delimits

/-- While caching is on, the cache is at the generations of the session, and what is
frozen for a bound name is the key of what the name stands for. -/
structure SessionCache.Agrees (cache : SessionCache) (point : SessionPoint) : Prop where
  globalGen : cache.globalGen = point.globalGen
  nameGens : ∀ name, (cache.nameGens name).getD 0 = point.nameGens name
  bound : cache.disabled = false →
    ∀ name, cache.bindingKeys name = (point.bound name).map Composition.key

theorem SessionCache.agrees_new : SessionCache.new.Agrees .start where
  globalGen := rfl
  nameGens _ := rfl
  bound _ _ := rfl

section Canon

variable {cache : SessionCache} {point : SessionPoint}

mutual

/-- The canonical text of an expression is the key of what the expression denotes. -/
theorem SessionCache.Agrees.canon (h : cache.Agrees point) (hon : cache.disabled = false) :
    ∀ e : Expr, cache.canon e = (point.denotes e).key
  | .name name => by
    rw [SessionCache.canon, SessionPoint.denotes, h.bound hon]
    cases point.bound name with
    | some composition => rfl
    | none =>
      change binKey name cache.globalGen ((cache.nameGens name).getD 0) = _
      rw [h.globalGen, h.nameGens]
      rfl
  | .app callee args => by
    rw [SessionCache.canon, SessionPoint.denotes, Composition.key,
      SessionCache.Agrees.canon h hon callee, SessionCache.Agrees.canonArgs h hon args]
  | .compose provider consumer => by
    rw [SessionCache.canon, SessionPoint.denotes, Composition.key,
      SessionCache.Agrees.canon h hon provider, SessionCache.Agrees.canon h hon consumer]
  | .extend base layer => by
    rw [SessionCache.canon, SessionPoint.denotes, Composition.key,
      SessionCache.Agrees.canon h hon base, SessionCache.Agrees.canon h hon layer]
  | .only allow body => by
    rw [SessionCache.canon, SessionPoint.denotes, Composition.key,
      SessionCache.Agrees.canon h hon body]
  | .rename source target body => by
    rw [SessionCache.canon, SessionPoint.denotes, Composition.key,
      SessionCache.Agrees.canon h hon body]
  | .with bindings body => by
    rw [SessionCache.canon, SessionPoint.denotes, Composition.key,
      SessionCache.Agrees.canonBindings h hon bindings, SessionCache.Agrees.canon h hon body]

theorem SessionCache.Agrees.canonArg (h : cache.Agrees point) (hon : cache.disabled = false) :
    ∀ a : Arg, cache.canonArg a = (point.denotesArg a).key
  | .flag name value => by
    rw [SessionCache.canonArg, SessionPoint.denotesArg, GivenArg.key,
      SessionCache.Agrees.canonValue h hon value]
  | .positional value => by
    rw [SessionCache.canonArg, SessionPoint.denotesArg, GivenArg.key,
      SessionCache.Agrees.canonValue h hon value]

theorem SessionCache.Agrees.canonValue (h : cache.Agrees point) (hon : cache.disabled = false) :
    ∀ v : ArgValue, cache.canonValue v = (point.denotesValue v).key
  | .word text => rfl
  | .quoted text => rfl
  | .expr expr => by
    rw [SessionCache.canonValue, SessionPoint.denotesValue, GivenValue.key,
      SessionCache.Agrees.canon h hon expr]

theorem SessionCache.Agrees.canonArgs (h : cache.Agrees point) (hon : cache.disabled = false) :
    ∀ args : List Arg, cache.canonArgs args = GivenArg.keys (point.denotesArgs args)
  | [] => rfl
  | arg :: rest => by
    rw [SessionCache.canonArgs, SessionPoint.denotesArgs, GivenArg.keys,
      SessionCache.Agrees.canonArg h hon arg, SessionCache.Agrees.canonArgs h hon rest]

theorem SessionCache.Agrees.canonBindings (h : cache.Agrees point)
    (hon : cache.disabled = false) : ∀ bindings : List WithBinding,
    cache.canonBindings bindings = GivenBinding.keys (point.denotesBindings bindings)
  | [] => rfl
  | .mk provider slot :: rest => by
    rw [SessionCache.canonBindings, SessionPoint.denotesBindings, GivenBinding.keys,
      GivenBinding.key, SessionCache.Agrees.canon h hon provider,
      SessionCache.Agrees.canonBindings h hon rest]

end

/-- One event keeps the cache and the session in agreement. -/
theorem SessionCache.Agrees.after (h : cache.Agrees point) (event : CacheEvent) :
    (cache.after event).Agrees (point.after event) := by
  cases event with
  | recordBinding name expr =>
    cases hoff : cache.disabled with
    | true =>
      have hcache : cache.after (.recordBinding name expr) = { cache with
          nextUnique := cache.nextUnique + 1
          bindingKeys := fun n => if n = name then
            some (tagged 'U' (decimal (cache.nextUnique + 1))) else cache.bindingKeys n } := by
        rw [SessionCache.after, SessionCache.recordBinding, if_pos hoff]
      rw [hcache]
      refine ⟨h.globalGen, h.nameGens, ?_⟩
      intro hon
      exact absurd (hoff.symm.trans hon) Bool.noConfusion
    | false =>
      have hcache : cache.after (.recordBinding name expr) = { cache with
          bindingKeys := fun n => if n = name then some (cache.canon expr)
            else cache.bindingKeys n } := by
        rw [SessionCache.after, SessionCache.recordBinding, if_neg (by rw [hoff]; exact Bool.noConfusion)]
      rw [hcache]
      refine ⟨h.globalGen, h.nameGens, ?_⟩
      intro _ n
      change (if n = name then _ else _) = Option.map _ (if n = name then _ else _)
      split_ifs
      · rw [h.canon hoff expr]
        rfl
      · exact h.bound hoff n
  | noteBinWrite name =>
    refine ⟨h.globalGen, ?_, h.bound⟩
    intro n
    change (if n = name then _ else _ : Option ℕ).getD 0 = if n = name then _ else _
    split_ifs
    · rw [← h.nameGens n]
      rfl
    · exact h.nameGens n
  | noteFsRun => exact ⟨congrArg (· + 1) h.globalGen, h.nameGens, h.bound⟩
  | disable => exact ⟨h.globalGen, h.nameGens, fun hon => by cases hon⟩

end Canon

/-- The cache of a session agrees with the session at each of its points. -/
theorem SessionCache.agrees_ofHistory (history : List CacheEvent) :
    (SessionCache.ofHistory history).Agrees (.ofHistory history) := by
  induction history using List.reverseRecOn with
  | nil => exact SessionCache.agrees_new
  | append_singleton history event ih =>
    rw [SessionCache.ofHistory, SessionPoint.ofHistory, List.foldl_append, List.foldl_append]
    exact ih.after event

/-- A run key is the key of what the expression denotes, and whether the session
has an environment. -/
theorem SessionCache.runKey_eq {history : List CacheEvent} {e : Expr} {env : Bool} {key : Str}
    (h : (SessionCache.ofHistory history).runKey e env = some key) :
    key = ((SessionPoint.ofHistory history).denotes e).key ++
      ch '|' :: if env then ascii "env" else ascii "noenv" := by
  rw [SessionCache.runKey] at h
  cases hoff : (SessionCache.ofHistory history).disabled with
  | true =>
    rw [hoff] at h
    cases h
  | false =>
    rw [hoff] at h
    rw [← (SessionCache.agrees_ofHistory history).canon hoff e]
    exact (Option.some.inj h).symm

/-- At any two points of any session, two expressions with one run key denote one
composition, under the same environment rule; and keys are uniquely decodable. -/
theorem runKey_faithful (history : List CacheEvent) (earlier later : ℕ) (e e' : Expr)
    (env env' : Bool) (key : Str)
    (h : (SessionCache.ofHistory (history.take earlier)).runKey e env = some key)
    (h' : (SessionCache.ofHistory (history.take later)).runKey e' env' = some key) :
    (SessionPoint.ofHistory (history.take earlier)).denotes e =
        (SessionPoint.ofHistory (history.take later)).denotes e' ∧ env = env' ∧
      ∀ c c' : Composition, ∀ s t, c.key ++ s = c'.key ++ t → c = c' ∧ s = t := by
  have heq := (SessionCache.runKey_eq h).symm.trans (SessionCache.runKey_eq h')
  obtain ⟨hdenotes, henv⟩ := Composition.delimits _ _ _ _ heq
  refine ⟨hdenotes, ?_, Composition.key_selfDelimiting⟩
  cases env <;> cases env' <;> first | rfl | exact absurd (List.cons.inj henv).2 (by decide)

/-- A binding keeps the program it was bound to, after a run that may have changed it. -/
theorem runKey_faithful_frozen :
    (SessionPoint.ofHistory ([.recordBinding (ascii "e") (.name (ascii "t")), .noteFsRun].take 0)
        ).denotes (.name (ascii "t")) =
      (SessionPoint.ofHistory ([.recordBinding (ascii "e") (.name (ascii "t")), .noteFsRun].take 2)
        ).denotes (.name (ascii "e")) ∧ true = true ∧
      ∀ c c' : Composition, ∀ s t, c.key ++ s = c'.key ++ t → c = c' ∧ s = t :=
  runKey_faithful [.recordBinding (ascii "e") (.name (ascii "t")), .noteFsRun] 0 2
    (.name (ascii "t")) (.name (ascii "e")) true true _ rfl rfl

end Eo9.Eosh
