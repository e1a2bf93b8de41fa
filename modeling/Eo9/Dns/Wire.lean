import Eo9.Library.Endian
import Eo9.Library.Splice
import Eo9.Library.SelfDelimiting

/-!
# Resolver replies

`skip_name` and `parse_reply` of `eo9-dns`. Indexing outside the datagram is a panic, and a loop
that has not ended when its fuel is used up runs forever.
-/

namespace Eo9.Dns

open Eo9.Library

abbrev Bytes := List UInt8

/-- What a reply carried, once it parses as an answer to our query. -/
inductive Reply where
  | a (a b c d : UInt8)
  | answered (count : ℕ)
  deriving DecidableEq

/-- A reply that is an answer to our query, but a failed one. -/
inductive ReplyError where
  | rcode (code : UInt8)
  | noRecords

/-- A step of the parser: it has no typed error of its own. -/
abbrev Parsed (α : Type) := Outcome Empty α

/-- `u16::from_be_bytes([packet[at], packet[at + 1]])` -/
def be16 (packet : Bytes) (i : ℕ) : Parsed ℕ := do
  let hi ← elemAt packet i
  let lo ← elemAt packet (i + 1)
  pure (bigEndianValue [hi, lo])

/-- The loop of `skip_name`. -/
def skipLoop (packet : Bytes) : (fuel : ℕ) → ℕ → Parsed (Option ℕ)
  | 0, _ => .error .diverge
  | fuel + 1, i =>
    match packet[i]? with
    | none => pure none
    | some len =>
      if len = 0 then pure (some (i + 1))
      -- compression pointer: two bytes, then done
      else if len &&& 0xc0 = 0xc0 then pure (some (i + 2))
      else skipLoop packet fuel (i + (1 + len.toNat))

/-- The end of a DNS name. -/
def skipName (packet : Bytes) (i : ℕ) : Parsed (Option ℕ) := skipLoop packet (packet.length + 1) i

/-- The loop past the question section. -/
def skipQuestions (packet : Bytes) : (questions : ℕ) → ℕ → Parsed (Option ℕ)
  | 0, i => pure (some i)
  | questions + 1, i => do
      match ← skipName packet i with
      | some next => skipQuestions packet questions (next + 4)
      | none => pure none

/-- The loop over the answers. -/
def findAddress (packet : Bytes) (answerCount : ℕ) : (answers : ℕ) → ℕ → Parsed Reply
  | 0, _ => pure (.answered answerCount)
  | answers + 1, i => do
      match ← skipName packet i with
      | none => pure (.answered answerCount)
      | some afterName =>
        if packet.length < afterName + 10 then pure (.answered answerCount)
        else
          let rtype ← be16 packet afterName
          let rdlength ← be16 packet (afterName + 8)
          let rdata := afterName + 10
          if rtype = 1 ∧ rdlength = 4 ∧ rdata + 4 ≤ packet.length then
            let a ← elemAt packet rdata
            let b ← elemAt packet (rdata + 1)
            let c ← elemAt packet (rdata + 2)
            let d ← elemAt packet (rdata + 3)
            pure (.a a b c d)
          else findAddress packet answerCount answers (rdata + rdlength)

/-- What `parse_reply` does behind the header: past the questions, then the first answer. -/
def readSections (packet : Bytes) (questions answerCount : ℕ) : Parsed Reply := do
  match ← skipQuestions packet questions 12 with
  | some i => findAddress packet answerCount answerCount i
  | none => pure (.answered answerCount)

/-- What the resolver said; `none` if the datagram is no answer to our query. -/
def parseReply (packet : Bytes) (id : UInt16) : Parsed (Option (Except ReplyError Reply)) :=
  if packet.length < 12 then pure none
  else do
    let echoed ← rangeOf packet 0 2
    if echoed ≠ bigEndian 2 id.toNat then pure none
    else
      let flags ← elemAt packet 2
      if flags &&& 0x80 = 0 then pure none
      else
        let flags ← elemAt packet 3
        let rcode := flags &&& 0x0f
        if rcode ≠ 0 then pure (some (.error (.rcode rcode)))
        else
          let questions ← be16 packet 4
          let answerCount ← be16 packet 6
          if answerCount = 0 then pure (some (.error .noRecords))
          else
            let reply ← readSections packet questions answerCount
            pure (some (.ok reply))

/-!
## Names and records on the wire

A name is a sequence of labels that ends at the root or in a compression pointer. A length byte
whose two top bits are `01` or `10` is reserved; such a byte is read here as the length of a
label, and `Name.Strict` are the names without one.
-/

variable {packet : Bytes} {i stop fuel n : ℕ} {name name' : Name}

structure Label where
  bytes : Bytes
  pos : 0 < bytes.length
  short : bytes.length < 192

inductive Ending where
  | root
  | pointer (hi lo : UInt8) (tag : hi &&& 0xc0 = 0xc0)

structure Name where
  labels : List Label
  ending : Ending

structure Question where
  name : Name
  qtype : UInt16
  qclass : UInt16

structure Record where
  name : Name
  rtype : UInt16
  rclass : UInt16
  ttl : UInt32
  rdata : Bytes
  fits : rdata.length < 2 ^ 16

def Label.encode (label : Label) : Bytes := UInt8.ofNat label.bytes.length :: label.bytes

def Ending.encode : Ending → Bytes
  | root => [0]
  | pointer hi lo _ => [hi, lo]

def Name.encode (name : Name) : Bytes := name.labels.flatMap Label.encode ++ name.ending.encode

def Question.encode (q : Question) : Bytes :=
  q.name.encode ++ (bigEndian 2 q.qtype.toNat ++ bigEndian 2 q.qclass.toNat)

def Record.encode (r : Record) : Bytes :=
  r.name.encode ++ (bigEndian 2 r.rtype.toNat ++ (bigEndian 2 r.rclass.toNat ++
    (bigEndian 4 r.ttl.toNat ++ (bigEndian 2 r.rdata.length ++ r.rdata))))

/-- The length byte of the label has a reserved form. -/
def Label.Reserved (label : Label) : Prop := 64 ≤ label.bytes.length

/-- No label is longer than a label may be. -/
def Name.Strict (name : Name) : Prop := ∀ label ∈ name.labels, ¬ label.Reserved

theorem Label.toNat_head (label : Label) :
    (UInt8.ofNat label.bytes.length).toNat = label.bytes.length := by
  have hshort := label.short
  rw [UInt8.toNat_ofNat']
  omega

theorem tag_iff (b : UInt8) : b &&& 0xc0 = 0xc0 ↔ 192 ≤ b.toNat := by
  have hall : ∀ b : Fin 256, UInt8.ofFin b &&& 0xc0 = 0xc0 ↔ 192 ≤ b.val := by decide +kernel
  exact hall b.toFin

theorem Label.head_ne (label : Label) :
    UInt8.ofNat label.bytes.length ≠ 0 ∧ ¬ UInt8.ofNat label.bytes.length &&& 0xc0 = 0xc0 := by
  constructor
  · intro h
    have hpos := label.pos
    have hhead := label.toNat_head
    rw [h] at hhead
    exact absurd hhead (Nat.ne_of_lt hpos)
  · rw [tag_iff, label.toNat_head]
    exact Nat.not_le.mpr label.short

theorem Name.encode_cons (label : Label) (labels : List Label) (ending : Ending) :
    Name.encode ⟨label :: labels, ending⟩ =
      UInt8.ofNat label.bytes.length :: (label.bytes ++ Name.encode ⟨labels, ending⟩) := by
  simp only [Name.encode, Label.encode, List.flatMap_cons, List.cons_append, List.append_assoc]

theorem Name.length_labels_lt (name : Name) : name.labels.length < name.encode.length := by
  obtain ⟨labels, ending⟩ := name
  induction labels with
  | nil => cases ending <;> exact Nat.zero_lt_succ _
  | cons label labels ih =>
    rw [Name.encode_cons, List.length_cons, List.length_cons, List.length_append]
    dsimp only at ih ⊢
    omega

theorem Name.encode_ne_nil (name : Name) : name.encode ≠ [] :=
  List.ne_nil_of_length_pos (Nat.zero_lt_of_lt name.length_labels_lt)

/-- The loop passes a name that stands in the datagram. -/
theorem skipLoop_placed (hplaced : Placed packet i name.encode)
    (hfuel : name.labels.length < fuel) :
    skipLoop packet fuel i = .ok (some (i + name.encode.length)) := by
  obtain ⟨labels, ending⟩ := name
  induction labels generalizing i fuel with
  | nil =>
    obtain ⟨fuel, rfl⟩ := Nat.exists_eq_succ_of_ne_zero (Nat.ne_zero_of_lt hfuel)
    cases ending with
    | root =>
      have hbyte := (placed_cons.mp hplaced).1
      rw [skipLoop, hbyte]
      rfl
    | pointer hi lo tag =>
      have hbyte := (placed_cons.mp hplaced).1
      have hne : hi ≠ 0 := by
        rintro rfl
        cases tag
      rw [skipLoop, hbyte]
      dsimp only
      rw [if_neg hne, if_pos tag]
      rfl
  | cons label labels ih =>
    obtain ⟨fuel, rfl⟩ := Nat.exists_eq_succ_of_ne_zero (Nat.ne_zero_of_lt hfuel)
    rw [Name.encode_cons, placed_cons, placed_append] at hplaced
    obtain ⟨hbyte, -, hrest⟩ := hplaced
    rw [skipLoop, hbyte]
    dsimp only
    rw [if_neg label.head_ne.1, if_neg label.head_ne.2, label.toNat_head,
      ← Nat.add_assoc i 1 label.bytes.length, ih hrest (Nat.lt_of_succ_lt_succ hfuel),
      Name.encode_cons, List.length_cons, List.length_append]
    congr 2
    omega

/-- Whatever the datagram holds, the loop ends; when it ends inside, a name stands there. -/
theorem skipLoop_spec (hfuel : packet.length - i < fuel) :
    ∃ r, skipLoop packet fuel i = .ok r ∧ ∀ stop ∈ r, stop ≤ packet.length →
      ∃ name : Name, Placed packet i name.encode ∧ stop = i + name.encode.length := by
  induction fuel generalizing i with
  | zero => exact absurd hfuel (Nat.not_lt_zero _)
  | succ fuel ih =>
    rw [skipLoop]
    cases hbyte : packet[i]? with
    | none => exact ⟨none, rfl, fun stop hstop => by cases hstop⟩
    | some len =>
      have hi : i < packet.length := (List.getElem?_eq_some_iff.mp hbyte).1
      dsimp only
      by_cases hzero : len = 0
      · rw [if_pos hzero]
        refine ⟨some (i + 1), rfl, ?_⟩
        rintro stop ⟨⟩ -
        refine ⟨⟨[], .root⟩, ?_, rfl⟩
        rw [hzero] at hbyte
        exact placed_cons.mpr ⟨hbyte, placed_nil⟩
      rw [if_neg hzero]
      by_cases htag : len &&& 0xc0 = 0xc0
      · rw [if_pos htag]
        refine ⟨some (i + 2), rfl, ?_⟩
        rintro stop ⟨⟩ hstop
        have hlo : packet[i + 1]? = some packet[i + 1] := List.getElem?_eq_getElem _
        exact ⟨⟨[], .pointer len packet[i + 1] htag⟩,
          placed_cons.mpr ⟨hbyte, placed_cons.mpr ⟨hlo, placed_nil⟩⟩, rfl⟩
      rw [if_neg htag]
      obtain ⟨r, hr, hspec⟩ := ih (i := i + (1 + len.toNat)) (by omega)
      refine ⟨r, hr, ?_⟩
      intro stop hmem hstop
      obtain ⟨⟨labels, ending⟩, hplaced, rfl⟩ := hspec stop hmem hstop
      have hend := hplaced.le_length (Name.encode_ne_nil _)
      have hpos : 0 < len.toNat := by
        apply Nat.pos_of_ne_zero
        intro h
        exact hzero (UInt8.toNat_inj.mp h)
      have hlt : len.toNat < 192 := by
        rw [tag_iff] at htag
        omega
      have hlabel : i + 1 + len.toNat ≤ packet.length := by omega
      have hlen : (sub packet (i + 1) len.toNat).length = len.toNat := length_sub hlabel
      have hhead : UInt8.ofNat len.toNat = len := UInt8.ofNat_toNat
      generalize hbytes : sub packet (i + 1) len.toNat = bytes at hlen
      refine ⟨⟨⟨bytes, by omega, by omega⟩ :: labels, ending⟩, ?_, ?_⟩
      · rw [Name.encode_cons, placed_cons, placed_append]
        dsimp only
        rw [hlen, hhead, Nat.add_assoc i 1 len.toNat, ← hbytes]
        exact ⟨hbyte, placed_sub hlabel, hplaced⟩
      · rw [Name.encode_cons, List.length_cons, List.length_append]
        dsimp only
        omega

theorem skipName_placed (hplaced : Placed packet i name.encode) :
    skipName packet i = .ok (some (i + name.encode.length)) := by
  apply skipLoop_placed hplaced
  have hlt := name.length_labels_lt
  have hend := hplaced.le_length name.encode_ne_nil
  omega

theorem skipName_spec (packet : Bytes) (i : ℕ) :
    ∃ r, skipName packet i = .ok r ∧ ∀ stop ∈ r, stop ≤ packet.length →
      ∃ name : Name, Placed packet i name.encode ∧ stop = i + name.encode.length :=
  skipLoop_spec (by omega)

theorem Ending.head_spec (ending : Ending) :
    ∃ b rest, ending.encode = b :: rest ∧ (b = 0 ∨ b &&& 0xc0 = 0xc0) := by
  cases ending with
  | root => exact ⟨0, [], rfl, .inl rfl⟩
  | pointer hi lo tag => exact ⟨hi, [lo], rfl, .inr tag⟩

theorem Ending.selfDelimiting : SelfDelimiting Ending.encode := by
  intro x y s t h
  cases x with
  | root =>
    cases y with
    | root => exact ⟨rfl, (List.cons.inj h).2⟩
    | pointer hi lo tag =>
      rw [← (List.cons.inj h).1] at tag
      cases tag
  | pointer hi lo tag =>
    cases y with
    | root =>
      rw [(List.cons.inj h).1] at tag
      cases tag
    | pointer hi' lo' tag' =>
      cases h
      exact ⟨rfl, rfl⟩

/-- A label is not taken for an ending. -/
theorem Label.encode_ne (label : Label) (ending : Ending) (s t : Bytes) :
    label.encode ++ s ≠ ending.encode ++ t := by
  intro h
  obtain ⟨b, rest, hencode, hb⟩ := ending.head_spec
  rw [hencode] at h
  obtain ⟨hzero, htag⟩ := label.head_ne
  rw [(List.cons.inj h).1] at hzero htag
  exact hb.elim hzero htag

theorem Label.selfDelimiting : SelfDelimiting Label.encode := by
  rintro ⟨x, hx, hx'⟩ ⟨y, hy, hy'⟩ s t h
  obtain ⟨hhead, hrest⟩ := List.cons.inj h
  have hlen : x.length = y.length := by
    rw [← Label.toNat_head ⟨x, hx, hx'⟩, ← Label.toNat_head ⟨y, hy, hy'⟩]
    exact congrArg UInt8.toNat hhead
  obtain ⟨rfl, rfl⟩ := List.append_inj hrest hlen
  exact ⟨rfl, rfl⟩

/-- A name shows its end. -/
theorem Name.selfDelimiting : SelfDelimiting Name.encode := by
  rintro ⟨labels, ending⟩ ⟨labels', ending'⟩ s t h
  simp only [Name.encode, List.append_assoc] at h
  induction labels generalizing labels' with
  | nil =>
    cases labels' with
    | nil =>
      obtain ⟨rfl, hst⟩ := Ending.selfDelimiting ending ending' s t h
      exact ⟨rfl, hst⟩
    | cons label labels' =>
      rw [List.flatMap_cons, List.append_assoc] at h
      exact absurd h.symm (label.encode_ne ending _ _)
  | cons label labels ih =>
    rw [List.flatMap_cons, List.append_assoc] at h
    cases labels' with
    | nil => exact absurd h (label.encode_ne ending' _ _)
    | cons label' labels' =>
      rw [List.flatMap_cons, List.append_assoc] at h
      obtain ⟨rfl, hrest⟩ := Label.selfDelimiting label label' _ _ h
      obtain ⟨heq, hst⟩ := ih labels' hrest
      cases heq
      exact ⟨rfl, hst⟩

theorem word_inj {x y : UInt16} (h : bigEndian 2 x.toNat = bigEndian 2 y.toNat) : x = y := by
  have hvalue := congrArg bigEndianValue h
  rw [bigEndianValue_bigEndian x.toNat_lt, bigEndianValue_bigEndian y.toNat_lt] at hvalue
  exact UInt16.toNat_inj.mp hvalue

theorem Question.selfDelimiting : SelfDelimiting Question.encode := by
  rintro ⟨name, qtype, qclass⟩ ⟨name', qtype', qclass'⟩ s t h
  simp only [Question.encode, List.append_assoc] at h
  obtain ⟨rfl, hfields⟩ := Name.selfDelimiting name name' _ _ h
  obtain ⟨htype, hfields⟩ := List.append_inj hfields (by simp)
  obtain ⟨hclass, hrest⟩ := List.append_inj hfields (by simp)
  obtain rfl := word_inj htype
  obtain rfl := word_inj hclass
  exact ⟨rfl, hrest⟩

theorem Record.selfDelimiting : SelfDelimiting Record.encode := by
  rintro ⟨name, rtype, rclass, ttl, rdata, fits⟩ ⟨name', rtype', rclass', ttl', rdata', fits'⟩ s t h
  simp only [Record.encode, List.append_assoc] at h
  obtain ⟨rfl, hfields⟩ := Name.selfDelimiting name name' _ _ h
  obtain ⟨htype, hfields⟩ := List.append_inj hfields (by simp)
  obtain ⟨hclass, hfields⟩ := List.append_inj hfields (by simp)
  obtain ⟨httl, hfields⟩ := List.append_inj hfields (by simp)
  obtain ⟨hlength, hfields⟩ := List.append_inj hfields (by simp)
  have httl : ttl = ttl' := by
    have hvalue := congrArg bigEndianValue httl
    rw [bigEndianValue_bigEndian ttl.toNat_lt, bigEndianValue_bigEndian ttl'.toNat_lt] at hvalue
    exact UInt32.toNat_inj.mp hvalue
  have hlength : rdata.length = rdata'.length := by
    have hvalue := congrArg bigEndianValue hlength
    rwa [bigEndianValue_bigEndian fits, bigEndianValue_bigEndian fits'] at hvalue
  obtain ⟨rfl, hrest⟩ := List.append_inj hfields hlength
  obtain rfl := word_inj htype
  obtain rfl := word_inj hclass
  subst httl
  exact ⟨rfl, hrest⟩

end Eo9.Dns
