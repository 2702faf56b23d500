import Runloom.DnsAnswer.Model

/-!
# The form of DNS answers

`WellFormed` is the form of a DNS answer that lies wholly inside the packet.  `Walk` is the looser form in which only
the first byte of each label has to be inside, with a list of what it lets through.  An answer is well formed when it
can be walked without a flaw.
-/

namespace Runloom.DnsAnswer

variable {data : List UInt8} {txn : ℕ}

/-- The number of two bytes at `off`. -/
def word (data : List UInt8) (off : ℕ) : ℕ := be16 (data.getD off 0) (data.getD (off + 1) 0)

/-! ## Well-formed answers -/

/-- Labels of 1 to 63 bytes, then a zero byte or a compression pointer. -/
inductive Name (data : List UInt8) : ℕ → ℕ → Prop where
  | root {off : ℕ} (h : data[off]? = some 0) : Name data off (off + 1)
  | pointer {off : ℕ} {b : UInt8} (h : data[off]? = some b) (hb : 192 ≤ b.toNat) (hin : off + 2 ≤ data.length) :
      Name data off (off + 2)
  | label {off e : ℕ} {b : UInt8} (h : data[off]? = some b) (hpos : 1 ≤ b.toNat) (hlen : b.toNat ≤ 63)
      (rest : Name data (off + 1 + b.toNat) e) : Name data off e

/-- `n` complete questions from `off` to `e`. -/
inductive Questions (data : List UInt8) : ℕ → ℕ → ℕ → Prop where
  | nil {off : ℕ} : Questions data 0 off off
  | cons {n off m e : ℕ} (name : Name data off m) (hin : m + 4 ≤ data.length) (rest : Questions data n (m + 4) e) :
      Questions data (n + 1) off e

/-- The type and the data of a resource record. -/
structure Record where
  rtype : ℕ
  rdata : List UInt8

/-- The record whose name ends at `m`; its data may be cut off. -/
def recordAt (data : List UInt8) (m : ℕ) : Record := ⟨word data m, slice data (m + 10) (word data (m + 8))⟩

/-- `n` complete records from `off` on. -/
inductive Records (data : List UInt8) : ℕ → ℕ → List Record → Prop where
  | nil {off : ℕ} : Records data 0 off []
  | cons {n off m : ℕ} {rs : List Record} (name : Name data off m) (hin : m + 10 + word data (m + 8) ≤ data.length)
      (rest : Records data n (m + 10 + word data (m + 8)) rs) :
      Records data (n + 1) off (recordAt data m :: rs)

/-- The address of a record of type A or AAAA with the length of it. -/
def Record.address (inet : Inet) (r : Record) : Option String :=
  if r.rtype = qtypeA ∧ r.rdata.length = 4 then some (inet.ntoa r.rdata)
  else if r.rtype = qtypeAAAA ∧ r.rdata.length = 16 then some (inet.ntop r.rdata)
  else none

def addresses (inet : Inet) (rs : List Record) : List String := rs.filterMap (Record.address inet)

/-- A header with the id of the query and without the truncation bit. -/
structure Answers (data : List UInt8) (txn : ℕ) : Prop where
  header : 12 ≤ data.length
  id : word data 0 = txn
  whole : (word data 2).testBit 9 = false

def rcode (data : List UInt8) : ℕ := word data 2 % 16

/-- A well-formed answer with the addresses `l`. -/
inductive WellFormed (inet : Inet) (data : List UInt8) (txn : ℕ) : List String → Prop where
  | nxdomain (h : Answers data txn) (hr : rcode data = 3) : WellFormed inet data txn []
  | found {off : ℕ} {rs : List Record} (h : Answers data txn) (hr : rcode data = 0)
      (hq : Questions data (word data 4) 12 off) (ha : Records data (word data 6) off rs) :
      WellFormed inet data txn (addresses inet rs)

/-! ## Answers with flaws -/

inductive Flaw where
  | longLabel
  | cutPointer
  | cutQuestion
  | cutRecord
  | cutData
deriving DecidableEq

/-- The flaw `f` unless `p` holds. -/
def flawUnless (p : Prop) [Decidable p] (f : Flaw) : List Flaw := if p then [] else [f]

theorem flawUnless_eq_nil {p : Prop} [Decidable p] {f : Flaw} : flawUnless p f = [] ↔ p := by
  unfold flawUnless
  split <;> simp_all

/-- A name from `off` to `e` each of whose labels starts inside the packet. -/
inductive LooseName (data : List UInt8) : ℕ → ℕ → List Flaw → Prop where
  | root {off : ℕ} (h : data[off]? = some 0) : LooseName data off (off + 1) []
  | pointer {off : ℕ} {b : UInt8} (h : data[off]? = some b) (hb : 192 ≤ b.toNat) :
      LooseName data off (off + 2) (flawUnless (off + 2 ≤ data.length) .cutPointer)
  | label {off e : ℕ} {b : UInt8} {fs : List Flaw} (h : data[off]? = some b) (hpos : 1 ≤ b.toNat)
      (hlen : b.toNat ≤ 191) (rest : LooseName data (off + 1 + b.toNat) e fs) :
      LooseName data off e (flawUnless (b.toNat ≤ 63) .longLabel ++ fs)

inductive LooseQuestions (data : List UInt8) : ℕ → ℕ → ℕ → List Flaw → Prop where
  | nil {off : ℕ} : LooseQuestions data 0 off off []
  | cons {n off m e : ℕ} {fs gs : List Flaw} (name : LooseName data off m fs)
      (rest : LooseQuestions data n (m + 4) e gs) :
      LooseQuestions data (n + 1) off e (fs ++ flawUnless (m + 4 ≤ data.length) .cutQuestion ++ gs)

/-- The records end where the head of one does not fit, however many are to come. -/
inductive LooseRecords (data : List UInt8) : ℕ → ℕ → List Record → List Flaw → Prop where
  | nil {off : ℕ} : LooseRecords data 0 off [] []
  | cut {n off m : ℕ} {fs : List Flaw} (name : LooseName data off m fs) (hout : data.length < m + 10) :
      LooseRecords data (n + 1) off [] (fs ++ [Flaw.cutRecord])
  | cons {n off m : ℕ} {rs : List Record} {fs gs : List Flaw} (name : LooseName data off m fs)
      (hin : m + 10 ≤ data.length) (rest : LooseRecords data n (m + 10 + word data (m + 8)) rs gs) :
      LooseRecords data (n + 1) off (recordAt data m :: rs)
        (fs ++ flawUnless (m + 10 + word data (m + 8) ≤ data.length) .cutData ++ gs)

/-- An answer that can be walked, with its records and its flaws. -/
inductive Walk (data : List UInt8) (txn : ℕ) : List Record → List Flaw → Prop where
  | mk {off : ℕ} {rs : List Record} {fs gs : List Flaw} (h : Answers data txn) (hr : rcode data = 0)
      (hq : LooseQuestions data (word data 4) 12 off fs) (ha : LooseRecords data (word data 6) off rs gs) :
      Walk data txn rs (fs ++ gs)

/-! ## A walk without a flaw -/

variable {off e : ℕ}

theorem Name.loose (h : Name data off e) : LooseName data off e [] := by
  induction h with
  | root h => exact .root h
  | pointer h hb hin =>
    have hp := LooseName.pointer h hb
    rwa [flawUnless_eq_nil.mpr hin] at hp
  | label h hpos hlen _ ih =>
    have hl := LooseName.label h hpos (by omega) ih
    rwa [flawUnless_eq_nil.mpr hlen] at hl

variable {fs : List Flaw}

theorem LooseName.name (h : LooseName data off e fs) (hfs : fs = []) :
    Name data off e := by
  induction h with
  | root h => exact .root h
  | pointer h hb => exact .pointer h hb (flawUnless_eq_nil.mp hfs)
  | label h hpos hlen _ ih =>
    rw [List.append_eq_nil_iff] at hfs
    exact .label h hpos (flawUnless_eq_nil.mp hfs.1) (ih hfs.2)

variable {n : ℕ}

theorem Questions.loose (h : Questions data n off e) : LooseQuestions data n off e [] := by
  induction h with
  | nil => exact .nil
  | cons name hin _ ih =>
    have hc := LooseQuestions.cons name.loose ih
    rwa [flawUnless_eq_nil.mpr hin] at hc

theorem LooseQuestions.questions (h : LooseQuestions data n off e fs) (hfs : fs = []) :
    Questions data n off e := by
  induction h with
  | nil => exact .nil
  | cons name _ ih =>
    rw [List.append_eq_nil_iff, List.append_eq_nil_iff] at hfs
    exact .cons (name.name hfs.1.1) (flawUnless_eq_nil.mp hfs.1.2) (ih hfs.2)

variable {rs : List Record}

theorem Records.loose (h : Records data n off rs) : LooseRecords data n off rs [] := by
  induction h with
  | nil => exact .nil
  | cons name hin _ ih =>
    have hc := LooseRecords.cons name.loose (by omega) ih
    rwa [flawUnless_eq_nil.mpr hin] at hc

theorem LooseRecords.records (h : LooseRecords data n off rs fs) (hfs : fs = []) : Records data n off rs := by
  induction h with
  | nil => exact .nil
  | cut _ _ => simp at hfs
  | cons name _ _ ih =>
    rw [List.append_eq_nil_iff, List.append_eq_nil_iff] at hfs
    exact .cons (name.name hfs.1.1) (flawUnless_eq_nil.mp hfs.1.2) (ih hfs.2)

/-! ## The bytes decide the walk -/

variable {fs' : List Flaw}

theorem LooseName.unique {e' : ℕ} (h : LooseName data off e fs)
    (h' : LooseName data off e' fs') : e = e' ∧ fs = fs' := by
  induction h generalizing e' fs' with
  | root h =>
    cases h' with
    | root _ => exact ⟨rfl, rfl⟩
    | pointer g hb =>
      cases h.symm.trans g
      simp at hb
    | label g hpos _ _ =>
      cases h.symm.trans g
      simp at hpos
  | pointer h hb =>
    cases h' with
    | root g =>
      cases h.symm.trans g
      simp at hb
    | pointer _ _ => exact ⟨rfl, rfl⟩
    | label g _ hlen _ =>
      cases h.symm.trans g
      omega
  | label h hpos hlen _ ih =>
    cases h' with
    | root g =>
      cases h.symm.trans g
      simp at hpos
    | pointer g hb =>
      cases h.symm.trans g
      omega
    | label g _ _ rest =>
      cases h.symm.trans g
      obtain ⟨rfl, rfl⟩ := ih rest
      exact ⟨rfl, rfl⟩

theorem LooseQuestions.unique {e' : ℕ} (h : LooseQuestions data n off e fs)
    (h' : LooseQuestions data n off e' fs') : e = e' ∧ fs = fs' := by
  induction h generalizing e' fs' with
  | nil =>
    cases h'
    exact ⟨rfl, rfl⟩
  | cons name _ ih =>
    cases h' with
    | cons name' rest' =>
      obtain ⟨rfl, rfl⟩ := name.unique name'
      obtain ⟨rfl, rfl⟩ := ih rest'
      exact ⟨rfl, rfl⟩

theorem LooseRecords.unique {rs' : List Record}
    (h : LooseRecords data n off rs fs) (h' : LooseRecords data n off rs' fs') : rs = rs' ∧ fs = fs' := by
  induction h generalizing rs' fs' with
  | nil =>
    cases h'
    exact ⟨rfl, rfl⟩
  | cut name hout =>
    cases h' with
    | cut name' _ =>
      obtain ⟨-, rfl⟩ := name.unique name'
      exact ⟨rfl, rfl⟩
    | cons name' hin _ =>
      obtain ⟨rfl, -⟩ := name.unique name'
      omega
  | cons name hin _ ih =>
    cases h' with
    | cut name' hout =>
      obtain ⟨rfl, -⟩ := name.unique name'
      omega
    | cons name' _ rest' =>
      obtain ⟨rfl, rfl⟩ := name.unique name'
      obtain ⟨rfl, rfl⟩ := ih rest'
      exact ⟨rfl, rfl⟩

theorem Walk.unique {rs' : List Record} (h : Walk data txn rs fs) (h' : Walk data txn rs' fs') :
    rs = rs' ∧ fs = fs' := by
  cases h with
  | mk _ _ hq ha =>
    cases h' with
    | mk _ _ hq' ha' =>
      obtain ⟨rfl, rfl⟩ := hq.unique hq'
      obtain ⟨rfl, rfl⟩ := ha.unique ha'
      exact ⟨rfl, rfl⟩

end Runloom.DnsAnswer
