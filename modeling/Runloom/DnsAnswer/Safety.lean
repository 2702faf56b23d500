import Mathlib.Data.Nat.Bitwise
import Runloom.DnsAnswer.Grammar

/-!
# What the parser accepts

Each loop of the parser succeeds exactly on the loose form that it walks, and fails with an `OSError` elsewhere.  So it
accepts exactly the well-formed answers on the packets without a flaw, and too much on the others.
-/

namespace Runloom.DnsAnswer

open List

variable {inet : Inet} {data : List UInt8} {txn : ℕ}

/-- A computation that raises nothing but `OSError`. -/
def OnlyOsError {α : Type*} (r : Except Exn α) : Prop := ∀ e, r = .error e → ∃ m, e = .osError m

theorem OnlyOsError.ok {α : Type*} (a : α) : OnlyOsError (.ok a : Except Exn α) := by
  intro e h
  cases h

theorem OnlyOsError.osError {α : Type*} (m : String) : OnlyOsError (.error (.osError m) : Except Exn α) := by
  intro e h
  cases h
  exact ⟨m, rfl⟩

theorem OnlyOsError.bind {α β : Type} {r : Except Exn α} {f : α → Except Exn β} (hr : OnlyOsError r)
    (hf : ∀ a, r = .ok a → OnlyOsError (f a)) : OnlyOsError (r >>= f) := by
  cases r with
  | ok a => exact hf a rfl
  | error e =>
    obtain ⟨m, rfl⟩ := hr e rfl
    exact .osError m

theorem bind_eq_ok {α β : Type} {r : Except Exn α} {f : α → Except Exn β} {b : β} :
    (r >>= f) = .ok b ↔ ∃ a, r = .ok a ∧ f a = .ok b := by
  cases r with
  | ok a =>
    constructor
    · intro h
      exact ⟨a, rfl, h⟩
    · rintro ⟨a', ha, h⟩
      cases ha
      exact h
  | error e =>
    constructor
    · intro h
      cases h
    · rintro ⟨a, ha, -⟩
      cases ha

/-! ## Bytes -/

theorem isPointer_iff (b : UInt8) : b &&& 0xC0 = 0xC0 ↔ 192 ≤ b.toNat := by
  have hall : ∀ n < 256, (UInt8.ofNat n &&& 0xC0 = 0xC0 ↔ 192 ≤ n) := by decide +kernel
  have hb := hall b.toNat (UInt8.toNat_lt b)
  rwa [UInt8.ofNat_toNat] at hb

theorem eq_zero_iff (b : UInt8) : b = 0 ↔ b.toNat = 0 := by
  rw [← UInt8.toNat_inj]
  rfl

theorem slice_length {off n : ℕ} (h : off + n ≤ data.length) : (slice data off n).length = n := by
  rw [slice, length_take, length_drop]
  omega

theorem slice_getD {off n i : ℕ} (hi : i < n) : (slice data off n).getD i 0 = data.getD (off + i) 0 := by
  simp only [slice, getD_eq_getElem?_getD, List.getElem?_take, List.getElem?_drop, if_pos hi]

theorem word_slice {off n i : ℕ} (hi : i + 1 < n) : word (slice data off n) i = word data (off + i) := by
  rw [word, word, slice_getD (by omega), slice_getD hi, Nat.add_assoc]

theorem unpackHeader_eq {bs : List UInt8} (h : bs.length = 12) :
    unpackHeader bs = .ok ⟨word bs 0, word bs 2, word bs 4, word bs 6⟩ := by
  match bs, h with
  | [_, _, _, _, _, _, _, _, _, _, _, _], _ => rfl

theorem unpackRecord_eq {bs : List UInt8} (h : bs.length = 10) : unpackRecord bs = .ok (word bs 0, word bs 8) := by
  match bs, h with
  | [_, _, _, _, _, _, _, _, _, _], _ => rfl

/-! ## Names -/

theorem skipDnsName_end {off : ℕ} (h : data.length ≤ off) :
    skipDnsName data off = .error (.osError "DNS name overruns packet") := by
  rw [skipDnsName, dif_pos h]

theorem skipDnsName_byte {off : ℕ} {b : UInt8} (h : data[off]? = some b) : skipDnsName data off =
      if b.toNat = 0 then .ok (off + 1)
      else if 192 ≤ b.toNat then .ok (off + 2)
      else skipDnsName data (off + 1 + b.toNat) := by
  obtain ⟨hlt, -⟩ := List.getElem?_eq_some_iff.mp h
  have hb : index data off = .ok b := by rw [index, h]
  rw [skipDnsName, dif_neg (by omega), hb]
  simp only [eq_zero_iff, isPointer_iff]

theorem skipDnsName_onlyOsError (off : ℕ) : OnlyOsError (skipDnsName data off) := by
  by_cases hlt : off < data.length
  · rw [skipDnsName_byte (List.getElem?_eq_getElem hlt)]
    split_ifs
    · exact .ok _
    · exact .ok _
    · exact skipDnsName_onlyOsError _
  · rw [skipDnsName_end (by omega)]
    exact .osError _
termination_by data.length - off

theorem LooseName.skip {off e : ℕ} {fs : List Flaw} (h : LooseName data off e fs) : skipDnsName data off = .ok e := by
  induction h with
  | root h => rw [skipDnsName_byte h, if_pos UInt8.toNat_zero]
  | pointer h hb => rw [skipDnsName_byte h, if_neg (by omega), if_pos hb]
  | label h hpos hlen _ ih => rw [skipDnsName_byte h, if_neg (by omega), if_neg (by omega), ih]

theorem LooseName.of_skip {off e : ℕ} (h : skipDnsName data off = .ok e) : ∃ fs, LooseName data off e fs := by
  by_cases hlt : off < data.length
  · have hb := List.getElem?_eq_getElem hlt
    rw [skipDnsName_byte hb] at h
    split_ifs at h with h0 hp
    · cases h
      rw [(eq_zero_iff _).mpr h0] at hb
      exact ⟨_, .root hb⟩
    · cases h
      exact ⟨_, .pointer hb hp⟩
    · obtain ⟨fs, hrest⟩ := LooseName.of_skip h
      exact ⟨_, .label hb (by omega) (by omega) hrest⟩
  · rw [skipDnsName_end (by omega)] at h
    cases h
termination_by data.length - off

/-! ## Questions and records -/

theorem skipQuestions_onlyOsError (n off : ℕ) : OnlyOsError (skipQuestions data n off) := by
  induction n generalizing off with
  | zero => exact .ok _
  | succ n ih => exact (skipDnsName_onlyOsError off).bind fun m _ => ih (m + 4)

theorem skipQuestions_eq_ok {n off e : ℕ} :
    skipQuestions data n off = .ok e ↔ ∃ fs, LooseQuestions data n off e fs := by
  constructor
  · intro h
    induction n generalizing off with
    | zero =>
      cases h
      exact ⟨[], .nil⟩
    | succ n ih =>
      obtain ⟨m, hm, h⟩ := bind_eq_ok.mp h
      obtain ⟨fs, hname⟩ := LooseName.of_skip hm
      obtain ⟨gs, hrest⟩ := ih h
      exact ⟨_, .cons hname hrest⟩
  · rintro ⟨fs, h⟩
    induction h with
    | nil => rfl
    | cons name _ ih => exact bind_eq_ok.mpr ⟨_, name.skip, ih⟩

theorem unpackRecord_slice {m : ℕ} (h : m + 10 ≤ data.length) :
    unpackRecord (slice data m 10) = .ok (word data m, word data (m + 8)) := by
  rw [unpackRecord_eq (slice_length h), word_slice (by omega), word_slice (by omega), Nat.add_zero]

theorem readAddress_eq (r : Record) : readAddress inet r.rtype r.rdata = .ok (r.address inet).toList := by
  unfold readAddress Record.address
  split_ifs with ha hb
  · rw [Inet.inetNtoa, if_pos ha.2]
    rfl
  · rw [Inet.inetNtop, if_pos hb.2]
    rfl
  · rfl

theorem readRecords_succ {n off m : ℕ} {addrs : List String} (h : skipDnsName data off = .ok m) :
    readRecords inet data (n + 1) off addrs =
      if data.length < m + 10 then .ok addrs
      else readRecords inet data n (m + 10 + word data (m + 8))
        (addrs ++ ((recordAt data m).address inet).toList) := by
  rw [readRecords, h]
  show (if data.length < m + 10 then _ else _) = _
  by_cases hout : data.length < m + 10
  · rw [if_pos hout, if_pos hout]
    rfl
  · rw [if_neg hout, if_neg hout, unpackRecord_slice (by omega)]
    show (readAddress inet (recordAt data m).rtype (recordAt data m).rdata >>= _) = _
    rw [readAddress_eq]
    rfl

theorem readRecords_onlyOsError (n off : ℕ) (addrs : List String) :
    OnlyOsError (readRecords inet data n off addrs) := by
  induction n generalizing off addrs with
  | zero => exact .ok _
  | succ n ih =>
    cases hm : skipDnsName data off with
    | error e =>
      obtain ⟨m, rfl⟩ := skipDnsName_onlyOsError off e hm
      rw [readRecords, hm]
      exact .osError m
    | ok m =>
      rw [readRecords_succ hm]
      split_ifs
      · exact .ok _
      · exact ih _ _

theorem LooseRecords.of_read {n off : ℕ} {addrs l : List String} (h : readRecords inet data n off addrs = .ok l) :
    ∃ rs fs, LooseRecords data n off rs fs ∧ l = addrs ++ addresses inet rs := by
  induction n generalizing off addrs with
  | zero =>
    cases h
    exact ⟨[], [], .nil, (append_nil _).symm⟩
  | succ n ih =>
    cases hm : skipDnsName data off with
    | error e =>
      rw [readRecords, hm] at h
      cases h
    | ok m =>
      obtain ⟨fs, hname⟩ := LooseName.of_skip hm
      rw [readRecords_succ hm] at h
      split_ifs at h with hout
      · cases h
        exact ⟨[], _, .cut hname hout, (append_nil _).symm⟩
      · obtain ⟨rs, gs, hrest, rfl⟩ := ih h
        refine ⟨_, _, .cons hname (by omega) hrest, ?_⟩
        rw [append_assoc, addresses, addresses, filterMap_cons]
        cases (recordAt data m).address inet <;> rfl

theorem LooseRecords.read {n off : ℕ} {rs : List Record} {fs : List Flaw} (h : LooseRecords data n off rs fs)
    (addrs : List String) : readRecords inet data n off addrs = .ok (addrs ++ addresses inet rs) := by
  induction h generalizing addrs with
  | nil => exact congrArg Except.ok (append_nil addrs).symm
  | cut name hout =>
    rw [readRecords_succ name.skip, if_pos hout]
    exact congrArg Except.ok (append_nil addrs).symm
  | @cons n off m rs fs gs name hin _ ih =>
    rw [readRecords_succ name.skip, if_neg (by omega), ih, append_assoc, addresses, addresses, filterMap_cons]
    cases (recordAt data m).address inet <;> rfl

/-! ## Answers -/

theorem flags_testBit (n : ℕ) : n &&& 0x0200 ≠ 0 ↔ n.testBit 9 = true := by
  rw [show 0x0200 = 2 ^ 9 from rfl, Nat.and_two_pow]
  cases n.testBit 9 <;> simp

theorem flags_rcode (n : ℕ) : n &&& 0xF = n % 16 := Nat.and_two_pow_sub_one_eq_mod n 4

theorem parseDnsAnswer_eq (inet : Inet) (data : List UInt8) (txn : ℕ) : parseDnsAnswer inet data txn =
      if data.length < 12 then .error (.osError "DNS response too short")
      else if word data 0 ≠ txn then .error (.osError "DNS txn mismatch")
      else if (word data 2).testBit 9 = true then .error (.osError "DNS response truncated (TC set)")
      else if rcode data = 3 then .ok []
      else if rcode data ≠ 0 then .error (.osError ("DNS server rcode=" ++ toString (rcode data)))
      else skipQuestions data (word data 4) 12 >>= fun off => readRecords inet data (word data 6) off [] := by
  unfold parseDnsAnswer rcode
  by_cases hlen : data.length < 12
  · rw [if_pos hlen, if_pos hlen]
    rfl
  · have hhdr : unpackHeader (slice data 0 12) = .ok ⟨word data 0, word data 2, word data 4, word data 6⟩ := by
      rw [unpackHeader_eq (slice_length (by omega)), word_slice (by omega), word_slice (by omega),
        word_slice (by omega), word_slice (by omega)]
    rw [if_neg hlen, if_neg hlen, hhdr]
    simp only [bind, Except.bind, flags_testBit, flags_rcode]
    show (if word data 0 ≠ txn then _ else _) = _
    split_ifs <;> rfl

theorem parseDnsAnswer_onlyOsError (inet : Inet) (data : List UInt8) (txn : ℕ) :
    OnlyOsError (parseDnsAnswer inet data txn) := by
  rw [parseDnsAnswer_eq]
  split_ifs
  · exact .osError _
  · exact .osError _
  · exact .osError _
  · exact .ok _
  · exact .osError _
  · exact (skipQuestions_onlyOsError _ _).bind fun off _ => readRecords_onlyOsError _ off []

theorem parseDnsAnswer_of_answers (h : Answers data txn) : parseDnsAnswer inet data txn =
      if rcode data = 3 then .ok []
      else if rcode data ≠ 0 then .error (.osError ("DNS server rcode=" ++ toString (rcode data)))
      else skipQuestions data (word data 4) 12 >>= fun off => readRecords inet data (word data 6) off [] := by
  have hlen := h.header
  rw [parseDnsAnswer_eq, if_neg (by omega), if_neg (not_not_intro h.id), if_neg (by simp [h.whole])]

theorem Answers.of_parse {l : List String} (h : parseDnsAnswer inet data txn = .ok l) : Answers data txn := by
  rw [parseDnsAnswer_eq] at h
  split_ifs at h with hlen hid htc
  all_goals exact ⟨by omega, not_not.mp hid, by simpa using htc⟩

theorem Walk.parse {rs : List Record} {fs : List Flaw} (h : Walk data txn rs fs) :
    parseDnsAnswer inet data txn = .ok (addresses inet rs) := by
  cases h with
  | mk h hr hq ha =>
    rw [parseDnsAnswer_of_answers h, if_neg (by omega), if_neg (by omega)]
    exact bind_eq_ok.mpr ⟨_, skipQuestions_eq_ok.mpr ⟨_, hq⟩, ha.read []⟩

theorem Walk.of_parse {l : List String} (h : parseDnsAnswer inet data txn = .ok l) (h3 : rcode data ≠ 3) :
    ∃ rs fs, Walk data txn rs fs ∧ l = addresses inet rs := by
  have hans := Answers.of_parse h
  rw [parseDnsAnswer_of_answers hans, if_neg h3] at h
  split_ifs at h with hr
  · obtain ⟨off, hoff, hread⟩ := bind_eq_ok.mp h
    obtain ⟨fs, hq⟩ := skipQuestions_eq_ok.mp hoff
    obtain ⟨rs, gs, ha, rfl⟩ := LooseRecords.of_read hread
    exact ⟨rs, _, .mk hans (not_not.mp hr) hq ha, rfl⟩

theorem WellFormed.parse {l : List String} (h : WellFormed inet data txn l) :
    parseDnsAnswer inet data txn = .ok l := by
  cases h with
  | nxdomain h hr => rw [parseDnsAnswer_of_answers h, if_pos hr]
  | found h hr hq ha => exact (Walk.mk h hr hq.loose ha.loose).parse

theorem Walk.wellFormed {rs : List Record} {fs : List Flaw} (h : Walk data txn rs fs) (hfs : fs = []) :
    WellFormed inet data txn (addresses inet rs) := by
  cases h with
  | mk h hr hq ha =>
    obtain ⟨hfs, hgs⟩ := append_eq_nil_iff.mp hfs
    exact .found h hr (hq.questions hfs) (ha.records hgs)

theorem Walk.eq_nil {rs : List Record} {fs : List Flaw} {l : List String} (h : Walk data txn rs fs)
    (hw : WellFormed inet data txn l) : fs = [] := by
  cases hw with
  | nxdomain _ hr =>
    cases h
    omega
  | found h' hr hq ha => exact (h.unique (Walk.mk h' hr hq.loose ha.loose)).2

/-- The parser raises `OSError` or accepts, and accepts exactly what is well formed. -/
structure AcceptsExactly (inet : Inet) (data : List UInt8) (txn : ℕ) : Prop where
  raises (e : Exn) (h : parseDnsAnswer inet data txn = .error e) : ∃ m, e = .osError m
  accepts (l : List String) : parseDnsAnswer inet data txn = .ok l ↔ WellFormed inet data txn l

/-- The parser accepts exactly what is well formed on the packets without a flaw. -/
theorem parse_dns_answer_exact (inet : Inet) (data : List UInt8) (txn : ℕ) :
    AcceptsExactly inet data txn ↔ ∀ rs fs, Walk data txn rs fs → fs = [] := by
  constructor
  · intro h rs fs hwalk
    exact hwalk.eq_nil ((h.accepts _).mp hwalk.parse)
  · intro hflaw
    refine ⟨parseDnsAnswer_onlyOsError inet data txn, fun l => ⟨fun hl => ?_, WellFormed.parse⟩⟩
    by_cases h3 : rcode data = 3
    · have hans := Answers.of_parse hl
      rw [parseDnsAnswer_of_answers hans, if_pos h3] at hl
      cases hl
      exact .nxdomain hans h3
    · obtain ⟨rs, fs, hwalk, rfl⟩ := Walk.of_parse hl h3
      exact hwalk.wellFormed (hflaw rs fs hwalk)

/-- The text of the addresses of 4 bytes; the packet below has no others. -/
def dotted : Inet := ⟨fun packed => ".".intercalate (packed.map toString), fun _ => "::"⟩

def cutAnswer : List UInt8 :=
  [0x12, 0x34, 0x81, 0x80, 0, 0, 0, 2, 0, 0, 0, 0, 0, 0, 1, 0, 1, 0, 0, 0, 60, 0, 4, 192, 0, 2, 1, 0, 0, 1]

/-- The parser returns the first address of an answer with two. -/
theorem cut_answer_accepted :
    parseDnsAnswer dotted cutAnswer 0x1234 = .ok ["192.0.2.1"] ∧ ¬AcceptsExactly dotted cutAnswer 0x1234 := by
  have hans : Answers cutAnswer 0x1234 := ⟨by decide, by decide, by decide⟩
  have hfirst : LooseName cutAnswer 12 13 [] := .root rfl
  have hsecond : LooseName cutAnswer 27 28 [] := .root rfl
  have hwalk := Walk.mk hans (by decide) (.nil : LooseQuestions cutAnswer 0 12 12 [])
    (.cons hfirst (by decide) (.cut (n := 0) hsecond (by decide)))
  refine ⟨by decide +kernel, fun h => ?_⟩
  have hnil := hwalk.eq_nil ((h.accepts _).mp hwalk.parse)
  exact absurd hnil (by decide)

end Runloom.DnsAnswer
