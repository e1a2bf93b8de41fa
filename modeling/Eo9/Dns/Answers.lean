import Eo9.Dns.Wire

/-!
# The answer section

What `parse_reply` reads of a datagram: the address is that of the first record of type A with
four data bytes, whatever its class is, on a walk that takes reserved length bytes for labels.
-/

namespace Eo9.Dns

open Eo9.Library

variable {packet : Bytes} {id : UInt16} {i n count : ℕ} {qs : List Question} {rs : List Record}
  {r r' : Record} {a b c d : UInt8}

theorem be16_placed {bytes : Bytes} (hplaced : Placed packet i bytes) (hlen : bytes.length = 2) :
    be16 packet i = .ok (bigEndianValue bytes) := by
  obtain ⟨hi, lo, rfl⟩ := List.length_eq_two.mp hlen
  have hrest := (placed_cons.mp hplaced).2
  rw [be16, hplaced.elemAt, Outcome.ok_bind, hrest.elemAt, Outcome.ok_bind]
  rfl

theorem be16_bigEndian (hplaced : Placed packet i (bigEndian 2 n)) (hn : n < 2 ^ 16) :
    be16 packet i = .ok n := by
  rw [be16_placed hplaced (length_bigEndian 2 n), bigEndianValue_bigEndian hn]

theorem be16_eq (h : i + 2 ≤ packet.length) :
    be16 packet i = .ok (bigEndianValue (sub packet i 2)) :=
  be16_placed (placed_sub h) (length_sub h)

/-- The word that stands in the datagram. -/
def word (packet : Bytes) (i : ℕ) : UInt16 := UInt16.ofNat (bigEndianValue (sub packet i 2))

theorem toNat_word (h : i + 2 ≤ packet.length) :
    (word packet i).toNat = bigEndianValue (sub packet i 2) := by
  have hlt := bigEndianValue_lt (sub packet i 2)
  rw [length_sub h] at hlt
  exact UInt16.toNat_ofNat_of_lt' hlt

theorem placed_word (h : i + 2 ≤ packet.length) :
    Placed packet i (bigEndian 2 (word packet i).toNat) := by
  rw [toNat_word h, bigEndian_bigEndianValue (length_sub h)]
  exact placed_sub h

theorem Question.length_encode (q : Question) : q.encode.length = q.name.encode.length + 4 := by
  rw [Question.encode, List.length_append, List.length_append, length_bigEndian, length_bigEndian]

/-- The questions that stand in the datagram are passed. -/
theorem skipQuestions_placed (hplaced : Placed packet i (qs.flatMap Question.encode)) :
    skipQuestions packet qs.length i = .ok (some (i + (qs.flatMap Question.encode).length)) := by
  induction qs generalizing i with
  | nil => rfl
  | cons q qs ih =>
    rw [List.flatMap_cons, placed_append] at hplaced
    have hname : Placed packet i q.name.encode := (placed_append.mp hplaced.1).1
    have hrest := hplaced.2
    rw [Question.length_encode, ← Nat.add_assoc] at hrest
    rw [List.length_cons, skipQuestions, skipName_placed hname, Outcome.ok_bind]
    dsimp only
    rw [ih hrest, List.flatMap_cons, List.length_append, Question.length_encode]
    simp only [Nat.add_assoc]

theorem skipQuestions_spec (packet : Bytes) (n i : ℕ) :
    ∃ res, skipQuestions packet n i = .ok res ∧ ∀ stop ∈ res, stop ≤ packet.length →
      ∃ qs : List Question, qs.length = n ∧ Placed packet i (qs.flatMap Question.encode) ∧
        stop = i + (qs.flatMap Question.encode).length := by
  induction n generalizing i with
  | zero =>
    refine ⟨some i, rfl, ?_⟩
    rintro stop ⟨⟩ -
    exact ⟨[], rfl, placed_nil, rfl⟩
  | succ n ih =>
    obtain ⟨next, hskip, hname⟩ := skipName_spec packet i
    rw [skipQuestions, hskip, Outcome.ok_bind]
    cases next with
    | none => exact ⟨none, rfl, fun stop hstop => by cases hstop⟩
    | some next =>
      obtain ⟨res, hres, hquestions⟩ := ih (next + 4)
      refine ⟨res, hres, ?_⟩
      intro stop hmem hstop
      obtain ⟨qs, hlen, hplaced, rfl⟩ := hquestions stop hmem hstop
      obtain ⟨name, hplacedName, rfl⟩ := hname next rfl (by omega)
      have htype : i + name.encode.length + 2 ≤ packet.length := by omega
      have hclass : i + name.encode.length + 2 + 2 ≤ packet.length := by omega
      refine ⟨⟨name, word packet (i + name.encode.length),
        word packet (i + name.encode.length + 2)⟩ :: qs, congrArg (· + 1) hlen, ?_, ?_⟩
      · rw [List.flatMap_cons, placed_append, Question.length_encode, Question.encode,
          placed_append, placed_append, length_bigEndian, ← Nat.add_assoc]
        exact ⟨⟨hplacedName, placed_word htype, placed_word hclass⟩, hplaced⟩
      · rw [List.flatMap_cons, List.length_append, Question.length_encode]
        dsimp only
        omega

theorem Record.length_encode (r : Record) :
    r.encode.length = r.name.encode.length + 10 + r.rdata.length := by
  simp only [Record.encode, List.length_append, length_bigEndian]
  omega

/-- The name and the fields of a record stand one behind the other. -/
theorem placed_record : Placed packet i r.encode ↔
    Placed packet i r.name.encode ∧
      Placed packet (i + r.name.encode.length) (bigEndian 2 r.rtype.toNat) ∧
      Placed packet (i + r.name.encode.length + 2) (bigEndian 2 r.rclass.toNat) ∧
      Placed packet (i + r.name.encode.length + 4) (bigEndian 4 r.ttl.toNat) ∧
      Placed packet (i + r.name.encode.length + 8) (bigEndian 2 r.rdata.length) ∧
      Placed packet (i + r.name.encode.length + 10) r.rdata := by
  simp only [Record.encode, placed_append, length_bigEndian, Nat.add_assoc]

theorem Record.encode_ne_nil (r : Record) : r.encode ≠ [] := by
  apply List.ne_nil_of_length_pos
  rw [Record.length_encode]
  omega

/-- What the loop over the answers takes an address from. -/
def Record.Taken (r : Record) : Prop := r.rtype = 1 ∧ r.rdata.length = 4

instance : DecidablePred Record.Taken := fun r =>
  inferInstanceAs (Decidable (r.rtype = 1 ∧ r.rdata.length = 4))

/-- A record that holds an Internet address. -/
def Record.Address (r : Record) : Prop := r.rtype = 1 ∧ r.rclass = 1 ∧ r.rdata.length = 4

/-- A record that is taken ends the loop. -/
theorem findAddress_taken (hplaced : Placed packet i r.encode) (hr : r.Taken)
    (hdata : r.rdata = [a, b, c, d]) :
    findAddress packet count (n + 1) i = .ok (.a a b c d) := by
  have hend := hplaced.le_length r.encode_ne_nil
  rw [Record.length_encode, hdata] at hend
  have hlength : [a, b, c, d].length = 4 := rfl
  rw [hlength] at hend
  obtain ⟨hname, htype, -, -, hrdlength, hrdata⟩ := placed_record.mp hplaced
  rw [hdata] at hrdata
  have hb := (placed_cons.mp hrdata).2
  have hc := (placed_cons.mp hb).2
  have hd := (placed_cons.mp hc).2
  have htypeOne : r.rtype.toNat = 1 := congrArg UInt16.toNat hr.1
  rw [findAddress, skipName_placed hname, Outcome.ok_bind]
  dsimp only
  rw [if_neg (by omega), be16_bigEndian htype r.rtype.toNat_lt, Outcome.ok_bind,
    be16_bigEndian hrdlength r.fits, Outcome.ok_bind, if_pos ⟨htypeOne, hr.2, by omega⟩,
    hrdata.elemAt, Outcome.ok_bind, hb.elemAt, Outcome.ok_bind, hc.elemAt, Outcome.ok_bind,
    hd.elemAt, Outcome.ok_bind]
  rfl

/-- Any other record is stepped over. -/
theorem findAddress_passed (hplaced : Placed packet i r.encode) (hr : ¬ r.Taken) :
    findAddress packet count (n + 1) i = findAddress packet count n (i + r.encode.length) := by
  have hend := hplaced.le_length r.encode_ne_nil
  rw [Record.length_encode] at hend
  obtain ⟨hname, htype, -, -, hrdlength, -⟩ := placed_record.mp hplaced
  have hnot : ¬ (r.rtype.toNat = 1 ∧ r.rdata.length = 4 ∧
      i + r.name.encode.length + 10 + 4 ≤ packet.length) := by
    rintro ⟨htypeOne, hfour, -⟩
    exact hr ⟨UInt16.toNat_inj.mp htypeOne, hfour⟩
  rw [findAddress, skipName_placed hname, Outcome.ok_bind]
  dsimp only
  rw [if_neg (by omega), be16_bigEndian htype r.rtype.toNat_lt, Outcome.ok_bind,
    be16_bigEndian hrdlength r.fits, Outcome.ok_bind, if_neg hnot, Record.length_encode]
  simp only [Nat.add_assoc]

/-- Behind the end of the datagram nothing is found. -/
theorem findAddress_beyond (h : packet.length ≤ i) :
    findAddress packet count n i = .ok (.answered count) := by
  cases n with
  | zero => rfl
  | succ n =>
    have hskip : skipName packet i = .ok none := by
      rw [skipName, skipLoop, List.getElem?_eq_none h]
      rfl
    rw [findAddress, hskip]
    rfl

/-- Where no record stands the loop ends without an address. -/
theorem findAddress_broken (hnone : ∀ r : Record, ¬ Placed packet i r.encode) :
    findAddress packet count (n + 1) i = .ok (.answered count) := by
  obtain ⟨next, hskip, hname⟩ := skipName_spec packet i
  rw [findAddress, hskip, Outcome.ok_bind]
  cases next with
  | none => rfl
  | some after =>
    dsimp only
    by_cases hshort : packet.length < after + 10
    · rw [if_pos hshort]
      rfl
    obtain ⟨name, hplaced, rfl⟩ := hname after rfl (by omega)
    generalize hat : i + name.encode.length = after at hshort ⊢
    have hbeyond : packet.length < after + 10 + (word packet (after + 8)).toNat := by
      apply Nat.lt_of_not_le
      intro hinside
      have hlen := length_sub (l := packet) hinside
      refine hnone ⟨name, word packet after, word packet (after + 2),
        UInt32.ofNat (bigEndianValue (sub packet (after + 4) 4)),
        sub packet (after + 10) (word packet (after + 8)).toNat, ?_⟩ ?_
      · rw [hlen]
        exact (word packet (after + 8)).toNat_lt
      · have httl : bigEndianValue (sub packet (after + 4) 4) < 2 ^ 32 := by
          have hlt := bigEndianValue_lt (sub packet (after + 4) 4)
          rwa [length_sub (by omega)] at hlt
        have hplacedTtl : Placed packet (after + 4)
            (bigEndian 4 (UInt32.ofNat (bigEndianValue (sub packet (after + 4) 4))).toNat) := by
          rw [UInt32.toNat_ofNat_of_lt' httl, bigEndian_bigEndianValue (length_sub (by omega))]
          exact placed_sub (by omega)
        rw [placed_record]
        dsimp only
        rw [hat, hlen]
        exact ⟨hplaced, placed_word (by omega), placed_word (by omega), hplacedTtl,
          placed_word (by omega), placed_sub hinside⟩
    have hword : bigEndianValue (sub packet (after + 8) 2) = (word packet (after + 8)).toNat :=
      (toNat_word (by omega)).symm
    rw [if_neg hshort, be16_eq (by omega), Outcome.ok_bind, be16_eq (by omega), Outcome.ok_bind,
      hword]
    rw [if_neg (by omega)]
    exact findAddress_beyond (by omega)

theorem four_bytes {bytes : Bytes} (h : bytes.length = 4) : ∃ a b c d, bytes = [a, b, c, d] := by
  obtain ⟨a, rest, rfl⟩ := List.exists_cons_of_length_eq_add_one h
  obtain ⟨b, c, d, rfl⟩ := List.length_eq_three.mp (Nat.succ.inj h)
  exact ⟨a, b, c, d, rfl⟩

/-- What the loop over the answers finds: the first record that is taken. -/
theorem findAddress_spec (packet : Bytes) (count n i : ℕ) :
    ∃ reply, findAddress packet count n i = .ok reply ∧ ∀ a b c d, reply = .a a b c d ↔
      ∃ (rs : List Record) (r : Record), Placed packet i ((rs ++ [r]).flatMap Record.encode) ∧
        rs.length < n ∧ r.Taken ∧ r.rdata = [a, b, c, d] ∧ ∀ r' ∈ rs, ¬ r'.Taken := by
  induction n generalizing i with
  | zero =>
    refine ⟨.answered count, rfl, fun a b c d => ⟨fun h => (by cases h), ?_⟩⟩
    rintro ⟨rs, r, -, hlt, -⟩
    exact absurd hlt (Nat.not_lt_zero _)
  | succ n ih =>
    have hfirst : ∀ (rs : List Record) (r : Record),
        Placed packet i ((rs ++ [r]).flatMap Record.encode) →
          ∃ r' ∈ (rs ++ [r]).head?, Placed packet i r'.encode := by
      intro rs r hplaced
      cases rs with
      | nil =>
        rw [List.nil_append, List.flatMap_cons, placed_append] at hplaced
        exact ⟨r, rfl, hplaced.1⟩
      | cons r' rs =>
        rw [List.cons_append, List.flatMap_cons, placed_append] at hplaced
        exact ⟨r', rfl, hplaced.1⟩
    by_cases hany : ∃ r : Record, Placed packet i r.encode
    · obtain ⟨first, hplaced⟩ := hany
      have hunique : ∀ r : Record, Placed packet i r.encode → r = first := by
        rintro r ⟨s, hs⟩
        obtain ⟨t, ht⟩ := hplaced
        exact (Record.selfDelimiting r first s t (hs.trans ht.symm)).1
      by_cases htaken : first.Taken
      · obtain ⟨a, b, c, d, hdata⟩ := four_bytes htaken.2
        refine ⟨.a a b c d, findAddress_taken hplaced htaken hdata, ?_⟩
        intro a' b' c' d'
        constructor
        · rintro ⟨⟩
          refine ⟨[], first, ?_, Nat.zero_lt_succ n, htaken, hdata, by simp⟩
          rw [List.nil_append, List.flatMap_cons, List.flatMap_nil, List.append_nil]
          exact hplaced
        · rintro ⟨rs, r, hwalk, -, -, hdata', hbefore⟩
          obtain ⟨r', hhead, hplaced'⟩ := hfirst rs r hwalk
          obtain rfl := hunique r' hplaced'
          cases rs with
          | nil =>
            cases hhead
            rw [hdata] at hdata'
            cases hdata'
            rfl
          | cons first' rs =>
            cases hhead
            exact absurd htaken (hbefore _ List.mem_cons_self)
      · obtain ⟨reply, hreply, hspec⟩ := ih (i + first.encode.length)
        refine ⟨reply, (findAddress_passed hplaced htaken).trans hreply, ?_⟩
        intro a b c d
        rw [hspec]
        constructor
        · rintro ⟨rs, r, hwalk, hlt, hr, hdata, hbefore⟩
          refine ⟨first :: rs, r, ?_, Nat.succ_lt_succ hlt, hr, hdata, ?_⟩
          · rw [List.cons_append, List.flatMap_cons, placed_append]
            exact ⟨hplaced, hwalk⟩
          · exact List.forall_mem_cons.mpr ⟨htaken, hbefore⟩
        · rintro ⟨rs, r, hwalk, hlt, hr, hdata, hbefore⟩
          obtain ⟨r', hhead, hplaced'⟩ := hfirst rs r hwalk
          obtain rfl := hunique r' hplaced'
          cases rs with
          | nil =>
            cases hhead
            exact absurd hr htaken
          | cons first' rs =>
            cases hhead
            rw [List.cons_append, List.flatMap_cons, placed_append] at hwalk
            exact ⟨rs, r, hwalk.2, Nat.lt_of_succ_lt_succ hlt, hr, hdata,
              fun r' hr' => hbefore r' (List.mem_cons_of_mem _ hr')⟩
    · have hnone : ∀ r : Record, ¬ Placed packet i r.encode := fun r h => hany ⟨r, h⟩
      refine ⟨.answered count, findAddress_broken hnone, fun a b c d => ⟨fun h => (by cases h), ?_⟩⟩
      rintro ⟨rs, r, hwalk, -⟩
      obtain ⟨r', -, hplaced⟩ := hfirst rs r hwalk
      exact absurd hplaced (hnone r')

/-- A response to the query with the id, without an error, and the counts of its header. -/
structure Response (packet : Bytes) (id : UInt16) (questions answers : ℕ) : Prop where
  header : 12 ≤ packet.length
  echoed : Placed packet 0 (bigEndian 2 id.toNat)
  response : ∃ flags, packet[2]? = some flags ∧ flags &&& 0x80 ≠ 0
  rcode : ∃ flags, packet[3]? = some flags ∧ flags &&& 0x0f = 0
  questions_lt : questions < 2 ^ 16
  placed_questions : Placed packet 4 (bigEndian 2 questions)
  answers_lt : answers < 2 ^ 16
  placed_answers : Placed packet 6 (bigEndian 2 answers)

theorem parseReply_response {questions answers : ℕ} (h : Response packet id questions answers)
    (hanswers : answers ≠ 0) :
    parseReply packet id =
      (readSections packet questions answers >>= fun reply => pure (some (.ok reply))) := by
  have hheader := h.header
  obtain ⟨flags, hflags, hresponse⟩ := h.response
  obtain ⟨flags', hflags', hrcode⟩ := h.rcode
  have hid : sub packet 0 (2 - 0) = bigEndian 2 id.toNat := h.echoed.sub_eq (length_bigEndian 2 _)
  have htwo : (elemAt packet 2 : Parsed UInt8) = .ok flags := by rw [elemAt, hflags]
  have hthree : (elemAt packet 3 : Parsed UInt8) = .ok flags' := by rw [elemAt, hflags']
  rw [parseReply, if_neg (by omega), rangeOf_ok (by omega) (by omega), Outcome.ok_bind, hid,
    if_neg (not_not_intro rfl), htwo, Outcome.ok_bind, if_neg hresponse, hthree, Outcome.ok_bind]
  dsimp only
  rw [if_neg (not_not_intro hrcode), be16_bigEndian h.placed_questions h.questions_lt,
    Outcome.ok_bind, be16_bigEndian h.placed_answers h.answers_lt, Outcome.ok_bind,
    if_neg hanswers]

/-- A datagram that is no such response, or has no answers, gives no address. -/
theorem response_or_refused (packet : Bytes) (id : UInt16) :
    (∃ questions answers, Response packet id questions answers ∧ answers ≠ 0) ∨
      ∃ res, parseReply packet id = .ok res ∧ ∀ a b c d, res ≠ some (.ok (.a a b c d)) := by
  by_cases hheader : packet.length < 12
  · right
    rw [parseReply, if_pos hheader]
    exact ⟨none, rfl, fun a b c d h => by cases h⟩
  rw [parseReply, if_neg hheader, rangeOf_ok (by omega) (by omega), Outcome.ok_bind]
  by_cases hid : sub packet 0 (2 - 0) = bigEndian 2 id.toNat
  swap
  · right
    rw [if_pos hid]
    exact ⟨none, rfl, fun a b c d h => by cases h⟩
  rw [if_neg (not_not_intro hid), elemAt_ok (by omega), Outcome.ok_bind]
  by_cases hflags : packet[2] &&& 0x80 = 0
  · right
    rw [if_pos hflags]
    exact ⟨none, rfl, fun a b c d h => by cases h⟩
  rw [if_neg hflags, elemAt_ok (by omega), Outcome.ok_bind]
  dsimp only
  by_cases hrcode : packet[3] &&& 0x0f = 0
  swap
  · right
    rw [if_pos hrcode]
    exact ⟨_, rfl, fun a b c d h => by cases h⟩
  rw [if_neg (not_not_intro hrcode), be16_eq (by omega), Outcome.ok_bind, be16_eq (by omega),
    Outcome.ok_bind, ← toNat_word (by omega), ← toNat_word (by omega)]
  by_cases hanswers : (word packet 6).toNat = 0
  · right
    rw [if_pos hanswers]
    exact ⟨_, rfl, fun a b c d h => by cases h⟩
  left
  have hplaced : Placed packet 0 (bigEndian 2 id.toNat) := by
    rw [← hid]
    exact placed_sub (by omega)
  exact ⟨(word packet 4).toNat, (word packet 6).toNat,
    ⟨by omega, hplaced, ⟨packet[2], List.getElem?_eq_getElem _, hflags⟩,
      ⟨packet[3], List.getElem?_eq_getElem _, hrcode⟩, UInt16.toNat_lt _, placed_word (by omega),
      UInt16.toNat_lt _, placed_word (by omega)⟩, hanswers⟩

/-- The question section and the first records of the answer section of a response. -/
structure Walk (packet : Bytes) (id : UInt16) (qs : List Question) (rs : List Record) : Prop where
  response : ∃ answers, Response packet id qs.length answers ∧ rs.length ≤ answers
  questions : Placed packet 12 (qs.flatMap Question.encode)
  records : Placed packet (12 + (qs.flatMap Question.encode).length) (rs.flatMap Record.encode)

/-- The datagram determines the counts of its header. -/
theorem Response.unique {questions answers questions' answers' : ℕ}
    (h : Response packet id questions answers) (h' : Response packet id questions' answers') :
    questions = questions' ∧ answers = answers' := by
  have hword : ∀ {i m n : ℕ}, m < 2 ^ 16 → n < 2 ^ 16 → Placed packet i (bigEndian 2 m) →
      Placed packet i (bigEndian 2 n) → m = n := by
    intro i m n hm hn hplaced hplaced'
    have hvalue := congrArg bigEndianValue (hplaced.unique hplaced' (by simp))
    rwa [bigEndianValue_bigEndian hm, bigEndianValue_bigEndian hn] at hvalue
  exact ⟨hword h.questions_lt h'.questions_lt h.placed_questions h'.placed_questions,
    hword h.answers_lt h'.answers_lt h.placed_answers h'.placed_answers⟩

/-- What is read behind the header of a response. -/
theorem readSections_spec {questions answers : ℕ} (h : Response packet id questions answers) :
    ∃ reply, readSections packet questions answers = .ok reply ∧ ∀ a b c d, reply = .a a b c d ↔
      ∃ qs rs r, Walk packet id qs (rs ++ [r]) ∧ r.Taken ∧ r.rdata = [a, b, c, d] ∧
        ∀ r' ∈ rs, ¬ r'.Taken := by
  obtain ⟨res, hskip, hquestions⟩ := skipQuestions_spec packet questions 12
  -- a walk passes the questions, and its records stand behind them
  have hwalk : ∀ qs rs, Walk packet id qs rs → rs.length ≤ answers ∧
      res = some (12 + (qs.flatMap Question.encode).length) := by
    intro qs rs hwalk
    obtain ⟨answers', hresponse, hle⟩ := hwalk.response
    obtain ⟨hqs, rfl⟩ := h.unique hresponse
    have hplaced := skipQuestions_placed hwalk.questions
    rw [← hqs, hskip] at hplaced
    exact ⟨hle, Except.ok.inj hplaced⟩
  rw [readSections, hskip, Outcome.ok_bind]
  cases res with
  | none =>
    refine ⟨.answered answers, rfl, fun a b c d => ⟨fun h => (by cases h), ?_⟩⟩
    rintro ⟨qs, rs, r, hrun, -⟩
    exact absurd (hwalk qs _ hrun).2 (by simp)
  | some i =>
    dsimp only
    by_cases hi : i ≤ packet.length
    · obtain ⟨qs, hlen, hplaced, rfl⟩ := hquestions i rfl hi
      obtain ⟨reply, hreply, hspec⟩ := findAddress_spec packet answers answers
        (12 + (qs.flatMap Question.encode).length)
      refine ⟨reply, hreply, fun a b c d => (hspec a b c d).trans ⟨?_, ?_⟩⟩
      · rintro ⟨rs, r, hrecords, hlt, htaken⟩
        refine ⟨qs, rs, r, ⟨⟨answers, hlen ▸ h, ?_⟩, hplaced, hrecords⟩, htaken⟩
        rw [List.length_append]
        exact hlt
      · rintro ⟨qs', rs, r, hrun, htaken⟩
        obtain ⟨hle, heq⟩ := hwalk qs' _ hrun
        rw [List.length_append] at hle
        refine ⟨rs, r, ?_, hle, htaken⟩
        rw [Option.some.inj heq]
        exact hrun.records
    · refine ⟨.answered answers, findAddress_beyond (Nat.le_of_not_le hi),
        fun a b c d => ⟨fun h => (by cases h), ?_⟩⟩
      rintro ⟨qs, rs, r, hrun, -⟩
      obtain ⟨-, heq⟩ := hwalk qs _ hrun
      have hrecords := hrun.records.le_length (by
        rw [List.flatMap_append]
        exact List.append_ne_nil_of_right_ne_nil _ (by
          rw [List.flatMap_cons]
          exact List.append_ne_nil_of_left_ne_nil r.encode_ne_nil _))
      have hindex := Option.some.inj heq
      omega

/-- What the parser returns for every datagram: an address is that of the first record that is
taken. -/
theorem parseReply_spec (packet : Bytes) (id : UInt16) :
    ∃ res, parseReply packet id = .ok res ∧ ∀ a b c d, res = some (.ok (.a a b c d)) ↔
      ∃ qs rs r, Walk packet id qs (rs ++ [r]) ∧ r.Taken ∧ r.rdata = [a, b, c, d] ∧
        ∀ r' ∈ rs, ¬ r'.Taken := by
  by_cases hany : ∃ questions answers, Response packet id questions answers ∧ answers ≠ 0
  · obtain ⟨questions, answers, hresponse, hanswers⟩ := hany
    obtain ⟨reply, hreply, hspec⟩ := readSections_spec hresponse
    refine ⟨some (.ok reply), ?_, ?_⟩
    · rw [parseReply_response hresponse hanswers, hreply]
      rfl
    · intro a b c d
      rw [← hspec]
      simp
  · obtain ⟨res, hres, hnot⟩ := (response_or_refused packet id).resolve_left hany
    refine ⟨res, hres, fun a b c d => ⟨fun h => absurd h (hnot a b c d), ?_⟩⟩
    rintro ⟨qs, rs, r, hwalk, -⟩
    obtain ⟨answers, hresponse, hle⟩ := hwalk.response
    rw [List.length_append] at hle
    exact absurd ⟨_, answers, hresponse, Nat.ne_of_gt (Nat.zero_lt_of_lt hle)⟩ hany

/-- The names of the sections have no reserved length byte. -/
def StrictNames (qs : List Question) (rs : List Record) : Prop :=
  (∀ q ∈ qs, q.name.Strict) ∧ ∀ r ∈ rs, r.name.Strict

/-- The first record of type A has the class IN. -/
def FirstInternet (rs : List Record) : Prop :=
  ∀ r ∈ rs.find? (fun r => r.rtype == 1), r.rclass = 1

/-- The reply gives the first Internet address of the answer section, and gives none behind a
reserved length byte or behind a record of type A and another class. -/
structure ReadsAnswers (packet : Bytes) (id : UInt16) : Prop where
  clean : (parseReply packet id).Clean
  address : ∀ a b c d, parseReply packet id = .ok (some (.ok (.a a b c d))) ↔
    ∃ qs rs r, Walk packet id qs (rs ++ [r]) ∧ StrictNames qs (rs ++ [r]) ∧ r.Address ∧
      r.rdata = [a, b, c, d] ∧ ∀ r' ∈ rs, ¬ r'.Address
  refused : ∀ qs rs r, Walk packet id qs (rs ++ [r]) → r.Taken → (∀ r' ∈ rs, ¬ r'.Taken) →
    ¬ (StrictNames qs (rs ++ [r]) ∧ FirstInternet (rs ++ [r])) →
      ∀ a b c d, parseReply packet id ≠ .ok (some (.ok (.a a b c d)))

/-- The record an address is taken from is reached over names without reserved length bytes, the
first record of type A on the way has the class IN, and so has the record, or else the first
Internet address behind it is the same one. -/
def Plain (packet : Bytes) (id : UInt16) : Prop :=
  ∀ qs rs r, Walk packet id qs (rs ++ [r]) → r.Taken → (∀ r' ∈ rs, ¬ r'.Taken) →
    StrictNames qs (rs ++ [r]) ∧ FirstInternet (rs ++ [r]) ∧
      (r.rclass = 1 ∨ ∃ more r', Walk packet id qs (rs ++ r :: (more ++ [r'])) ∧
        StrictNames qs (rs ++ r :: (more ++ [r'])) ∧ r'.Address ∧ r'.rdata = r.rdata ∧
          ∀ r ∈ more, ¬ r.Address)

/-- Two walks over one datagram pass the same questions, and one passes the records of the other
first. -/
theorem Walk.comparable {qs' : List Question} {rs' : List Record} (h : Walk packet id qs rs)
    (h' : Walk packet id qs' rs') : qs = qs' ∧ (rs <+: rs' ∨ rs' <+: rs) := by
  obtain ⟨answers, hresponse, -⟩ := h.response
  obtain ⟨answers', hresponse', -⟩ := h'.response
  have hlen := (hresponse.unique hresponse').1
  obtain ⟨s, hs⟩ := h.questions
  obtain ⟨t, ht⟩ := h'.questions
  obtain ⟨rfl, -⟩ := Question.selfDelimiting.counted hlen (hs.trans ht.symm)
  refine ⟨rfl, ?_⟩
  obtain ⟨s, hs⟩ := h.records
  obtain ⟨t, ht⟩ := h'.records
  exact Record.selfDelimiting.comparable (hs.trans ht.symm)

/-- A walk can end earlier. -/
theorem Walk.left {more : List Record} (h : Walk packet id qs (rs ++ more)) :
    Walk packet id qs rs := by
  obtain ⟨answers, hresponse, hle⟩ := h.response
  have hrecords := h.records
  rw [List.length_append] at hle
  rw [List.flatMap_append, placed_append] at hrecords
  exact ⟨⟨answers, hresponse, Nat.le_of_add_right_le hle⟩, h.questions, hrecords.1⟩

theorem Record.Address.taken (h : r.Address) : r.Taken := ⟨h.1, h.2.2⟩

/-- A walk to a record that is taken passes the first such record. -/
theorem exists_first_taken (rs : List Record) (h : r.Taken) :
    ∃ first r' rest, rs ++ [r] = first ++ r' :: rest ∧ r'.Taken ∧ ∀ r ∈ first, ¬ r.Taken := by
  have hsome : ((rs ++ [r]).find? fun r => decide r.Taken).isSome := by
    rw [List.find?_isSome]
    exact ⟨r, by simp, decide_eq_true h⟩
  obtain ⟨r', hfind⟩ := Option.isSome_iff_exists.mp hsome
  obtain ⟨htaken, first, rest, heq, hfirst⟩ := List.find?_eq_some_iff_append.mp hfind
  exact ⟨first, r', rest, heq, of_decide_eq_true htaken, fun r hr => by simpa using hfirst r hr⟩

theorem parseReply_eq_iff : parseReply packet id = .ok (some (.ok (.a a b c d))) ↔
    ∃ qs rs r, Walk packet id qs (rs ++ [r]) ∧ r.Taken ∧ r.rdata = [a, b, c, d] ∧
      ∀ r' ∈ rs, ¬ r'.Taken := by
  obtain ⟨res, hres, hspec⟩ := parseReply_spec packet id
  rw [← hspec, hres, Except.ok.injEq]

/-- A record whose address comes out is the first Internet address, or stands before one that
holds the same bytes. -/
theorem internet_or_behind {rs' : List Record} (hwalk : Walk packet id qs (rs ++ [r]))
    (hbefore : ∀ r' ∈ rs, ¬ r'.Taken) (hwalk' : Walk packet id qs (rs' ++ [r']))
    (haddress : r'.Address) :
    r.rclass = 1 ∨ ∃ more, rs' ++ [r'] = rs ++ r :: (more ++ [r']) := by
  obtain ⟨-, ⟨tail, htail⟩ | hbehind⟩ := hwalk.comparable hwalk'
  · obtain rfl | ⟨more, last, rfl⟩ := List.eq_nil_or_concat' tail
    · rw [List.append_nil] at htail
      obtain ⟨-, rfl⟩ := List.append_singleton_inj.mp htail
      exact .inl haddress.2.1
    · right
      rw [← List.append_assoc] at htail
      obtain ⟨-, rfl⟩ := List.append_singleton_inj.mp htail
      exact ⟨more, by rw [← htail]; simp⟩
  · obtain hmem | hmem := List.mem_append.mp (hbehind.subset (List.mem_append_right rs' List.mem_cons_self))
    · exact absurd haddress.taken (hbefore r' hmem)
    · obtain rfl := List.mem_singleton.mp hmem
      exact .inl haddress.2.1

instance : DecidablePred Record.Address := fun r =>
  inferInstanceAs (Decidable (r.rtype = 1 ∧ r.rclass = 1 ∧ r.rdata.length = 4))

/-- No Internet address is among records that are not taken, one of another class and more that
are none. -/
theorem not_address_behind {more : List Record} (hbefore : ∀ r' ∈ rs, ¬ r'.Taken)
    (hclass : r.rclass ≠ 1) (hmore : ∀ r' ∈ more, ¬ r'.Address) :
    ∀ r' ∈ rs ++ r :: more, ¬ r'.Address := by
  intro r' hmem haddress
  obtain hmem | hmem := List.mem_append.mp hmem
  · exact hbefore r' hmem haddress.taken
  · obtain rfl | hmem := List.mem_cons.mp hmem
    · exact hclass haddress.2.1
    · exact hmore r' hmem haddress

/-- The first Internet address of a datagram is one record. -/
theorem address_unique {rs' : List Record} (hwalk : Walk packet id qs (rs ++ [r]))
    (haddress : r.Address) (hbefore : ∀ r' ∈ rs, ¬ r'.Address)
    (hwalk' : Walk packet id qs (rs' ++ [r'])) (haddress' : r'.Address)
    (hbefore' : ∀ r ∈ rs', ¬ r.Address) : r = r' := by
  have hfind : ∀ {rs : List Record} {r : Record}, r.Address → (∀ r' ∈ rs, ¬ r'.Address) →
      (rs ++ [r]).find? (fun r => decide r.Address) = some r := by
    intro rs r haddress hbefore
    rw [List.find?_append, List.find?_eq_none.mpr fun r' hr' => by simpa using hbefore r' hr']
    simp [haddress]
  have hleft := hfind haddress hbefore
  have hright := hfind haddress' hbefore'
  obtain ⟨-, hpre | hpre⟩ := hwalk.comparable hwalk'
  · rw [hpre.find?_eq_some hleft] at hright
    exact Option.some.inj hright
  · rw [hpre.find?_eq_some hright] at hleft
    exact (Option.some.inj hleft).symm

/-- The reply is right exactly on the plain datagrams. -/
theorem readsAnswers_iff (packet : Bytes) (id : UInt16) :
    ReadsAnswers packet id ↔ Plain packet id := by
  constructor
  · intro h qs rs r hwalk htaken hbefore
    obtain ⟨a, b, c, d, hdata⟩ := four_bytes htaken.2
    have hreply := parseReply_eq_iff.mpr ⟨qs, rs, r, hwalk, htaken, hdata, hbefore⟩
    have hgood : StrictNames qs (rs ++ [r]) ∧ FirstInternet (rs ++ [r]) := by
      by_contra hnot
      exact h.refused qs rs r hwalk htaken hbefore hnot a b c d hreply
    refine ⟨hgood.1, hgood.2, ?_⟩
    obtain ⟨qs', rs', r', hwalk', hstrict, haddress, hdata', hfirst⟩ :=
      (h.address a b c d).mp hreply
    obtain ⟨rfl, -⟩ := hwalk.comparable hwalk'
    obtain hclass | ⟨more, heq⟩ := internet_or_behind hwalk hbefore hwalk' haddress
    · exact .inl hclass
    · right
      rw [heq] at hwalk' hstrict
      refine ⟨more, r', hwalk', hstrict, haddress, hdata'.trans hdata.symm, ?_⟩
      intro r'' hmem
      apply hfirst
      have hrs : rs' = rs ++ r :: more := by
        rw [← List.cons_append, ← List.append_assoc] at heq
        exact List.append_cancel_right heq
      rw [hrs]
      exact List.mem_append_right _ (List.mem_cons_of_mem _ hmem)
  · intro h
    refine ⟨?_, ?_, ?_⟩
    · obtain ⟨res, hres, -⟩ := parseReply_spec packet id
      rw [hres]
      exact Outcome.clean_ok res
    · intro a b c d
      rw [parseReply_eq_iff]
      constructor
      · rintro ⟨qs, rs, r, hwalk, htaken, hdata, hbefore⟩
        obtain ⟨hstrict, -, hclass | ⟨more, r', hwalk', hstrict', haddress, hdata', hmore⟩⟩ :=
          h qs rs r hwalk htaken hbefore
        · exact ⟨qs, rs, r, hwalk, hstrict, ⟨htaken.1, hclass, htaken.2⟩, hdata,
            fun r' hr' haddress => hbefore r' hr' haddress.taken⟩
        · by_cases hclass : r.rclass = 1
          · exact ⟨qs, rs, r, hwalk, hstrict, ⟨htaken.1, hclass, htaken.2⟩, hdata,
              fun r' hr' haddress => hbefore r' hr' haddress.taken⟩
          · rw [← List.cons_append, ← List.append_assoc] at hwalk' hstrict'
            exact ⟨qs, rs ++ r :: more, r', hwalk', hstrict', haddress, hdata'.trans hdata,
              not_address_behind hbefore hclass hmore⟩
      · rintro ⟨qs, rs, r, hwalk, hstrict, haddress, hdata, hbefore⟩
        obtain ⟨first, r', rest, heq, htaken, hfirst⟩ := exists_first_taken rs haddress.taken
        have hwalk' : Walk packet id qs (first ++ [r']) := by
          rw [heq, List.append_cons] at hwalk
          exact hwalk.left
        refine ⟨qs, first, r', hwalk', htaken, ?_, hfirst⟩
        have hnone : ∀ r ∈ first, ¬ r.Address := fun r hr hr' => hfirst r hr hr'.taken
        obtain ⟨-, -, hbehind⟩ := h qs first r' hwalk' htaken hfirst
        by_cases hclass : r'.rclass = 1
        · have hr' : r'.Address := ⟨htaken.1, hclass, htaken.2⟩
          rw [address_unique hwalk' hr' hnone hwalk haddress hbefore, hdata]
        · obtain ⟨more, r'', hlong, -, hr'', hsame, hmore⟩ := hbehind.resolve_left hclass
          rw [← List.cons_append, ← List.append_assoc] at hlong
          have hnone' := not_address_behind hfirst hclass hmore
          rw [← hsame, address_unique hlong hr'' hnone' hwalk haddress hbefore, hdata]
    · intro qs rs r hwalk htaken hbefore hnot
      obtain ⟨hstrict, hinternet, -⟩ := h qs rs r hwalk htaken hbefore
      exact absurd ⟨hstrict, hinternet⟩ hnot

/-- A response with one question for the root and one answer of type A and class CH. -/
def chaos : Bytes :=
  [0x0e, 0x09, 0x81, 0x80, 0, 1, 0, 1, 0, 0, 0, 0, 0, 0, 1, 0, 1,
    0, 0, 1, 0, 3, 0, 0, 0, 0, 0, 4, 10, 0, 0, 7]

/-- An address comes out of a record of another class. -/
theorem chaos_taken : ¬ ReadsAnswers chaos 0x0e09 := by
  intro h
  have hresponse : Response chaos 0x0e09 1 1 :=
    ⟨by decide, by decide, ⟨0x81, by decide, by decide⟩, ⟨0x80, by decide, by decide⟩, by decide,
      by decide, by decide, by decide⟩
  have hwalk : Walk chaos 0x0e09 [⟨⟨[], .root⟩, 1, 1⟩]
      ([] ++ [⟨⟨[], .root⟩, 1, 3, 0, [10, 0, 0, 7], by decide⟩]) :=
    ⟨⟨1, hresponse, by decide⟩, by decide, by decide⟩
  have hclass : ¬ FirstInternet ([] ++ [⟨⟨[], .root⟩, 1, 3, 0, [10, 0, 0, 7], by decide⟩]) := by
    intro hfirst
    exact absurd (hfirst _ rfl) (by decide)
  exact h.refused _ _ _ hwalk (by decide) (by simp) (fun hgood => hclass hgood.2) 10 0 0 7 rfl

end Eo9.Dns
