import Runloom.DnsAnswer.Safety

/-!
# DNS queries

Model of `_encode_query_name` and `_build_query`.  The transaction id is what `randint` returned, and the `idna` codec is
a parameter: it is only asked for names that are not ASCII.
-/

namespace Runloom.DnsQuery

open DnsAnswer

/-- `bytes` or `bytearray`, or a `str`. -/
inductive HostName where
  | bytes (b : List UInt8)
  | str (s : String)

/-- `_encode_query_name`. -/
def encodeQueryName (idna : String → Except Exn (List UInt8)) : HostName → Except Exn (List UInt8)
  | .bytes b => .ok b
  | .str s =>
    if s.toList.all fun c => c.toNat < 128 then .ok (s.toList.map fun c => UInt8.ofNat c.toNat)
    else idna s

/-- The two bytes of `!H`. -/
def packH (n : ℕ) : List UInt8 := [UInt8.ofNat (n / 256), UInt8.ofNat (n % 256)]

/-- The four bytes of `!I`. -/
def packI (n : ℕ) : List UInt8 := packH (n / 65536) ++ packH (n % 65536)

/-- `struct.pack` of numbers of two bytes each. -/
def pack (ns : List ℕ) : Except Exn (List UInt8) :=
  if ∀ n ∈ ns, n < 65536 then .ok (ns.flatMap packH) else .error .structError

/-- `b"."`. -/
def dot : UInt8 := 0x2E

def encodeLabels : List (List UInt8) → List UInt8 → Except Exn (List UInt8)
  | [], qname => .ok qname
  | lbl :: lbls, qname =>
    if lbl = [] then encodeLabels lbls qname
    else if 63 < lbl.length then .error (.osError "DNS label too long")
    else encodeLabels lbls (qname ++ (UInt8.ofNat lbl.length :: lbl))

/-- The EDNS0 record: type 41, a payload of 4096, no flags and no data. -/
def opt : List UInt8 := 0 :: (packH 41 ++ packH 4096 ++ packI 0 ++ packH 0)

/-- `_build_query`, with the id that was drawn. -/
def buildQuery (idna : String → Except Exn (List UInt8)) (txn : ℕ) (name : HostName) (qtype : ℕ) :
    Except Exn (ℕ × List UInt8) := do
  let flags := 0x0100
  let hdr ← pack [txn, flags, 1, 0, 0, 1]
  let encoded ← encodeQueryName idna name
  let qname ← encodeLabels (encoded.splitOn dot) []
  let fields ← pack [qtype, 1]
  return (txn, hdr ++ (qname ++ [0] ++ fields) ++ opt)

end Runloom.DnsQuery

/-!
## The form of DNS messages

The decoder of a whole message by the DNS grammar: the header, as many questions and records as it counts, and what is
left over.  The answers of a server are built from records whose parts carry their bounds.
-/

namespace Runloom.DnsQuery

open DnsAnswer

/-! ## Reading -/

/-- How a name ends. -/
inductive Ending where
  | root
  | pointer (offset : ℕ)
deriving DecidableEq

/-- The labels of a name and its end; `fuel` bounds their number. -/
def readLabels : ℕ → List UInt8 → Option (List (List UInt8) × Ending × List UInt8)
  | 0, _ => none
  | _ + 1, [] => none
  | fuel + 1, b :: bs =>
    if b = 0 then some ([], .root, bs)
    else if 192 ≤ b.toNat then
      match bs with
      | [] => none
      | lo :: bs => some ([], .pointer ((b.toNat - 192) * 256 + lo.toNat), bs)
    else if 63 < b.toNat ∨ bs.length < b.toNat then none
    else
      match readLabels fuel (bs.drop b.toNat) with
      | none => none
      | some (labels, ending, rest) => some (bs.take b.toNat :: labels, ending, rest)

def readName (bs : List UInt8) : Option (List (List UInt8) × Ending × List UInt8) := readLabels bs.length bs

def readH : List UInt8 → Option (ℕ × List UInt8)
  | hi :: lo :: bs => some (be16 hi lo, bs)
  | _ => none

structure Question where
  labels : List (List UInt8)
  ending : Ending
  qtype : ℕ
  qclass : ℕ

structure Resource where
  labels : List (List UInt8)
  ending : Ending
  rtype : ℕ
  rclass : ℕ
  ttl : ℕ
  rdata : List UInt8
deriving DecidableEq

def readQuestion (bs : List UInt8) : Option (Question × List UInt8) := do
  let (labels, ending, bs) ← readName bs
  let (qtype, bs) ← readH bs
  let (qclass, bs) ← readH bs
  return (⟨labels, ending, qtype, qclass⟩, bs)

def readResource (bs : List UInt8) : Option (Resource × List UInt8) := do
  let (labels, ending, bs) ← readName bs
  let (rtype, bs) ← readH bs
  let (rclass, bs) ← readH bs
  let (hi, bs) ← readH bs
  let (lo, bs) ← readH bs
  let (rdlen, bs) ← readH bs
  if bs.length < rdlen then none
  else return (⟨labels, ending, rtype, rclass, hi * 65536 + lo, bs.take rdlen⟩, bs.drop rdlen)

/-- `n` things of one kind. -/
def readMany {α : Type} (read : List UInt8 → Option (α × List UInt8)) : ℕ → List UInt8 → Option (List α × List UInt8)
  | 0, bs => some ([], bs)
  | n + 1, bs => do
    let (a, bs) ← read bs
    let (as, bs) ← readMany read n bs
    return (a :: as, bs)

structure Message where
  txn : ℕ
  flags : ℕ
  questions : List Question
  answers : List Resource
  authority : List Resource
  additional : List Resource

def readMessage (bs : List UInt8) : Option (Message × List UInt8) := do
  let (txn, bs) ← readH bs
  let (flags, bs) ← readH bs
  let (qd, bs) ← readH bs
  let (an, bs) ← readH bs
  let (ns, bs) ← readH bs
  let (ar, bs) ← readH bs
  let (questions, bs) ← readMany readQuestion qd bs
  let (answers, bs) ← readMany readResource an bs
  let (authority, bs) ← readMany readResource ns bs
  let (additional, bs) ← readMany readResource ar bs
  return (⟨txn, flags, questions, answers, authority, additional⟩, bs)

/-! ## Answers of a server -/

def Label : Type := {l : List UInt8 // 1 ≤ l.length ∧ l.length ≤ 63}

def Label.encode (l : Label) : List UInt8 := UInt8.ofNat l.1.length :: l.1

/-- The zero byte, or a compression pointer. -/
inductive OwnerEnd where
  | root
  | pointer (hi lo : UInt8) (h : 192 ≤ hi.toNat)

def OwnerEnd.encode : OwnerEnd → List UInt8
  | .root => [0]
  | .pointer hi lo _ => [hi, lo]

structure Owner where
  labels : List Label
  ending : OwnerEnd

def Owner.encode (o : Owner) : List UInt8 := o.labels.flatMap Label.encode ++ o.ending.encode

/-- A record of type A, of type AAAA, or of another type. -/
inductive Rdata where
  | a (addr : {l : List UInt8 // l.length = 4})
  | aaaa (addr : {l : List UInt8 // l.length = 16})
  | other (rtype : UInt16) (data : {l : List UInt8 // l.length < 65536})
      (h : rtype.toNat ≠ qtypeA ∧ rtype.toNat ≠ qtypeAAAA)

def Rdata.rtype : Rdata → ℕ
  | .a _ => qtypeA
  | .aaaa _ => qtypeAAAA
  | .other rtype _ _ => rtype.toNat

def Rdata.bytes : Rdata → List UInt8
  | .a addr => addr.1
  | .aaaa addr => addr.1
  | .other _ data _ => data.1

def Rdata.address (inet : Inet) : Rdata → Option String
  | .a addr => some (inet.ntoa addr.1)
  | .aaaa addr => some (inet.ntop addr.1)
  | .other _ _ _ => none

structure Answer where
  owner : Owner
  rclass : UInt16
  ttl : UInt32
  rdata : Rdata

def Answer.encode (r : Answer) : List UInt8 :=
  r.owner.encode ++ (packH r.rdata.rtype ++ packH r.rclass.toNat ++ packI r.ttl.toNat ++ packH r.rdata.bytes.length) ++
    r.rdata.bytes

/-- The fields of a header, with the counts of the other sections. -/
structure Head where
  flags : UInt16
  ns : UInt16
  ar : UInt16

/-- A header with one question and the answers `rs`, their bytes, and the sections after them. -/
def respond (txn : ℕ) (hd : Head) (qpart : List UInt8) (rs : List Answer) (more : List UInt8) : List UInt8 :=
  packH txn ++ packH hd.flags.toNat ++ packH 1 ++ packH rs.length ++ packH hd.ns.toNat ++ packH hd.ar.toNat ++ qpart ++
    rs.flatMap Answer.encode ++ more

end Runloom.DnsQuery

/-!
## Queries and answers round trip

What `_build_query` makes of a name is read back by the grammar, and an answer built on its question is read by
`_parse_dns_answer`.  Both go along the bytes that are left from an offset on.
-/

namespace Runloom.DnsQuery

open DnsAnswer List

variable {data bs post : List UInt8} {off n : ℕ}

/-! ## Bytes -/

theorem ofNat_length {l : List UInt8} (h : l.length ≤ 63) : (UInt8.ofNat l.length).toNat = l.length :=
  UInt8.toNat_ofNat_of_lt' (by show _ < 256; omega)

theorem be16_packH (h : n < 65536) : be16 (UInt8.ofNat (n / 256)) (UInt8.ofNat (n % 256)) = n := by
  have hhi : (UInt8.ofNat (n / 256)).toNat = n / 256 := UInt8.toNat_ofNat_of_lt' (by show _ < 256; omega)
  have hlo : (UInt8.ofNat (n % 256)).toNat = n % 256 := UInt8.toNat_ofNat_of_lt' (by show _ < 256; omega)
  rw [be16, hhi, hlo]
  omega

theorem readH_packH (h : n < 65536) : readH (packH n ++ bs) = some (n, bs) := by
  show some (be16 _ _, bs) = _
  rw [be16_packH h]

theorem pack_eq {ns : List ℕ} (h : ∀ n ∈ ns, n < 65536) : pack ns = .ok (ns.flatMap packH) := if_pos h

/-! ## The labels of a query -/

def wire (ls : List (List UInt8)) : List UInt8 := ls.flatMap fun l => UInt8.ofNat l.length :: l

theorem encodeLabels_eq (ls : List (List UInt8)) (qname : List UInt8) (h : ∀ l ∈ ls, l.length ≤ 63) :
    encodeLabels ls qname = .ok (qname ++ wire (ls.filter (· ≠ []))) := by
  induction ls generalizing qname with
  | nil =>
    show Except.ok qname = .ok (qname ++ [])
    rw [append_nil]
  | cons l ls ih =>
    have htail : ∀ l ∈ ls, l.length ≤ 63 := fun l hl => h l (mem_cons_of_mem _ hl)
    rw [encodeLabels]
    by_cases hl : l = []
    · rw [if_pos hl, ih qname htail, filter_cons_of_neg (by simpa using hl)]
    · have hle := h l mem_cons_self
      rw [if_neg hl, if_neg (by omega), ih _ htail, filter_cons_of_pos (by simpa using hl), wire, wire,
        flatMap_cons, append_assoc]

/-- The labels of a name, with a dot between them and perhaps one at the end. -/
def dotted (ls : List (List UInt8)) (trailing : Bool) : List UInt8 :=
  [dot].intercalate ls ++ if trailing then [dot] else []

variable {ls : List (List UInt8)}

theorem intercalate_snoc (h : ls ≠ []) : [dot].intercalate ls ++ [dot] = [dot].intercalate (ls ++ [[]]) := by
  induction ls with
  | nil => exact absurd rfl h
  | cons l ls ih =>
    by_cases hls : ls = []
    · subst hls
      simp [intercalate_cons_cons]
    · rw [cons_append, intercalate_cons_of_ne_nil hls, intercalate_cons_of_ne_nil (by simp), ← ih hls,
        append_assoc]

theorem splitOn_dotted (trailing : Bool) (hdot : ∀ l ∈ ls, dot ∉ l)
    (hne : ∀ l ∈ ls, l ≠ []) : ((dotted ls trailing).splitOn dot).filter (· ≠ []) = ls := by
  have hall : ls.filter (· ≠ []) = ls := filter_eq_self.mpr fun l hl => by simpa using hne l hl
  by_cases hls : ls = []
  · subst hls
    cases trailing <;> decide +kernel
  cases trailing with
  | false =>
    rw [dotted, if_neg nofun, append_nil, splitOn_intercalate dot hdot hls, hall]
  | true =>
    -- a dot at the end is an empty label behind it
    have hdot' : ∀ l ∈ ls ++ [[]], dot ∉ l := by
      intro l hl
      rcases mem_append.mp hl with hl | hl
      · exact hdot l hl
      · rw [mem_singleton.mp hl]
        exact not_mem_nil
    rw [dotted, if_pos rfl, intercalate_snoc hls, splitOn_intercalate dot hdot' (by simp), filter_append, hall]
    exact append_nil ls

theorem readLabels_wire (h : ∀ l ∈ ls, 1 ≤ l.length ∧ l.length ≤ 63) (fuel : ℕ)
    (hf : ls.length < fuel) : readLabels fuel (wire ls ++ 0 :: bs) = some (ls, .root, bs) := by
  induction ls generalizing fuel with
  | nil =>
    obtain ⟨fuel, rfl⟩ : ∃ k, fuel = k + 1 := ⟨fuel - 1, by rw [length_nil] at hf; omega⟩
    rfl
  | cons l ls ih =>
    obtain ⟨fuel, rfl⟩ : ∃ k, fuel = k + 1 := ⟨fuel - 1, by rw [length_cons] at hf; omega⟩
    rw [length_cons] at hf
    obtain ⟨hpos, hle⟩ := h l mem_cons_self
    have hlen := ofNat_length hle
    have hnz : UInt8.ofNat l.length ≠ 0 := by
      intro hz
      rw [hz] at hlen
      have : l.length = 0 := hlen.symm
      omega
    have hsplit : wire (l :: ls) ++ 0 :: bs = UInt8.ofNat l.length :: (l ++ (wire ls ++ 0 :: bs)) := by
      simp [wire]
    have hbound : ¬(63 < l.length ∨ (l ++ (wire ls ++ 0 :: bs)).length < l.length) := by
      rw [length_append]
      omega
    rw [hsplit, readLabels.eq_def]
    dsimp only
    rw [if_neg hnz, hlen, if_neg (by omega), if_neg hbound, drop_left, take_left,
      ih (fun l hl => h l (mem_cons_of_mem _ hl)) fuel (by omega)]

theorem length_le_wire (ls : List (List UInt8)) : ls.length ≤ (wire ls).length := by
  induction ls with
  | nil => exact le_rfl
  | cons l ls ih =>
    rw [wire, flatMap_cons, length_append, length_cons, length_cons]
    rw [wire] at ih
    omega

theorem readName_wire (h : ∀ l ∈ ls, 1 ≤ l.length ∧ l.length ≤ 63) :
    readName (wire ls ++ 0 :: bs) = some (ls, .root, bs) := by
  refine readLabels_wire h _ ?_
  have hle := length_le_wire ls
  rw [length_append, length_cons]
  omega

def question (ls : List (List UInt8)) (qtype : ℕ) : List UInt8 := wire ls ++ [0] ++ (packH qtype ++ packH 1)

def query (txn : ℕ) (ls : List (List UInt8)) (qtype : ℕ) : List UInt8 :=
  [txn, 0x0100, 1, 0, 0, 1].flatMap packH ++ question ls qtype ++ opt

variable {txn qtype : ℕ}

theorem buildQuery_eq {idna : String → Except Exn (List UInt8)} {name : HostName}
    {trailing : Bool} (ht : txn < 65536) (hq : qtype < 65536)
    (hl : ∀ l ∈ ls, 1 ≤ l.length ∧ l.length ≤ 63 ∧ dot ∉ l)
    (he : encodeQueryName idna name = .ok (dotted ls trailing)) :
    buildQuery idna txn name qtype = .ok (txn, query txn ls qtype) := by
  have hhdr : pack [txn, 0x0100, 1, 0, 0, 1] = .ok ([txn, 0x0100, 1, 0, 0, 1].flatMap packH) := by
    refine pack_eq fun n hn => ?_
    simp only [mem_cons, not_mem_nil, or_false] at hn
    omega
  have hfields : pack [qtype, 1] = .ok ([qtype, 1].flatMap packH) := by
    refine pack_eq fun n hn => ?_
    simp only [mem_cons, not_mem_nil, or_false] at hn
    omega
  have hdot : ∀ l ∈ ls, dot ∉ l := fun l hm => (hl l hm).2.2
  have hne : ∀ l ∈ ls, l ≠ [] := by
    rintro l hm rfl
    exact absurd (hl _ hm).1 (by decide)
  have hsplit := splitOn_dotted trailing hdot hne
  have hlong : ∀ l ∈ (dotted ls trailing).splitOn dot, l.length ≤ 63 := by
    intro l hm
    by_cases hnil : l = []
    · rw [hnil]
      exact Nat.zero_le _
    · have hmem : l ∈ ls := by
        rw [← hsplit]
        exact mem_filter.mpr ⟨hm, by simpa using hnil⟩
      exact (hl l hmem).2.1
  have hlabels := encodeLabels_eq _ [] hlong
  rw [hsplit] at hlabels
  simp only [buildQuery, hhdr, he, hlabels, hfields, bind, Except.bind, pure, Except.pure]
  simp [query, question]

theorem readQuestion_question (hq : qtype < 65536) (hl : ∀ l ∈ ls, 1 ≤ l.length ∧ l.length ≤ 63) :
    readQuestion (question ls qtype ++ bs) = some (⟨ls, .root, qtype, 1⟩, bs) := by
  have hbytes : question ls qtype ++ bs = wire ls ++ 0 :: (packH qtype ++ (packH 1 ++ bs)) := by simp [question]
  rw [readQuestion, hbytes, readName_wire hl]
  simp [readH_packH hq, readH_packH (show 1 < 65536 by decide)]

theorem readMessage_query (ht : txn < 65536) (hq : qtype < 65536) (hl : ∀ l ∈ ls, 1 ≤ l.length ∧ l.length ≤ 63) :
    readMessage (query txn ls qtype) =
      some (⟨txn, 0x0100, [⟨ls, .root, qtype, 1⟩], [], [], [⟨[], .root, 41, 4096, 0, []⟩]⟩, []) := by
  have hbytes : query txn ls qtype = packH txn ++ (packH 0x0100 ++ (packH 1 ++ (packH 0 ++ (packH 0 ++
      (packH 1 ++ (question ls qtype ++ opt)))))) := by
    simp [query]
  have hopt : readResource opt = some (⟨[], .root, 41, 4096, 0, []⟩, []) := by decide +kernel
  have hconst : ∀ k bs, k < 65536 → readH (packH k ++ bs) = some (k, bs) := fun k bs hk => readH_packH hk
  rw [readMessage, hbytes]
  simp only [hconst _ _ ht, hconst 0x0100 _ (by decide), hconst 1 _ (by decide), hconst 0 _ (by decide), readMany,
    readQuestion_question hq hl, hopt, Option.bind_eq_bind, Option.bind_some, Option.pure_def]

/-! ## The answers -/

theorem drop_append_of (h : data.drop off = bs ++ post) : data.drop (off + bs.length) = post := by
  rw [← drop_drop, h, drop_left]

theorem getElem?_of_drop {b : UInt8} (h : data.drop off = b :: post) : data[off]? = some b := by
  have hget := congrArg (fun l => l[0]?) h
  simpa using hget

theorem length_of_drop (h : data.drop off = bs ++ post) (hb : bs ≠ []) : off + bs.length ≤ data.length := by
  have hlen := congrArg List.length h
  have hpos := length_pos_of_ne_nil hb
  rw [length_drop, length_append] at hlen
  omega

theorem word_of_drop (hn : n < 65536) (h : data.drop off = packH n ++ post) : word data off = n := by
  have hhi : data[off]? = some (UInt8.ofNat (n / 256)) := getElem?_of_drop h
  have hnext : data.drop (off + 1) = UInt8.ofNat (n % 256) :: post := by
    rw [← drop_drop, h]
    rfl
  have hlo := getElem?_of_drop hnext
  rw [word, getD_eq_getElem?_getD, getD_eq_getElem?_getD, hhi, hlo]
  exact be16_packH hn

theorem Owner.name (o : Owner) (h : data.drop off = o.encode ++ post) : Name data off (off + o.encode.length) := by
  obtain ⟨labels, ending⟩ := o
  induction labels generalizing off with
  | nil =>
    cases ending with
    | root => exact .root (getElem?_of_drop h)
    | pointer hi lo hhi => exact .pointer (getElem?_of_drop h) hhi (length_of_drop h nofun)
  | cons l labels ih =>
    have hlen := ofNat_length l.2.2
    have hcons : Owner.encode ⟨l :: labels, ending⟩ = l.encode ++ Owner.encode ⟨labels, ending⟩ := by
      simp [Owner.encode]
    rw [hcons, append_assoc] at h
    have hrest := ih (drop_append_of h)
    have hoff : off + l.encode.length = off + 1 + (UInt8.ofNat l.1.length).toNat := by
      rw [hlen, Label.encode, length_cons]
      omega
    have hend : off + (Owner.encode ⟨l :: labels, ending⟩).length =
        off + l.encode.length + (Owner.encode ⟨labels, ending⟩).length := by
      rw [hcons, length_append]
      omega
    rw [hend]
    rw [hoff] at hrest ⊢
    have hl := l.2
    exact .label (getElem?_of_drop h) (by omega) (by omega) hrest

def Answer.record (r : Answer) : Record := ⟨r.rdata.rtype, r.rdata.bytes⟩

theorem Rdata.rtype_lt (d : Rdata) : d.rtype < 65536 := by
  cases d with
  | a _ => exact (by decide : qtypeA < 65536)
  | aaaa _ => exact (by decide : qtypeAAAA < 65536)
  | other rtype _ _ => exact rtype.toNat_lt

theorem Rdata.length_lt (d : Rdata) : d.bytes.length < 65536 := by
  cases d with
  | a addr | aaaa addr => exact addr.2.trans_lt (by decide)
  | other _ data _ => exact data.2

theorem Answer.address_record (inet : Inet) (r : Answer) : r.record.address inet = r.rdata.address inet := by
  obtain ⟨owner, rclass, ttl, rdata⟩ := r
  cases rdata with
  | a addr => exact if_pos ⟨rfl, addr.2⟩
  | aaaa addr =>
    have hnot : ¬(qtypeAAAA = qtypeA ∧ addr.1.length = 4) := fun h => absurd h.1 (by decide)
    exact (if_neg hnot).trans (if_pos ⟨rfl, addr.2⟩)
  | other rtype data h =>
    have hnot : ¬(rtype.toNat = qtypeA ∧ data.1.length = 4) := fun hc => h.1 hc.1
    have hnot' : ¬(rtype.toNat = qtypeAAAA ∧ data.1.length = 16) := fun hc => h.2 hc.1
    exact (if_neg hnot).trans (if_neg hnot')

theorem records_answers (rs : List Answer) (h : data.drop off = rs.flatMap Answer.encode ++ post) :
    Records data rs.length off (rs.map Answer.record) := by
  induction rs generalizing off with
  | nil => exact .nil
  | cons r rs ih =>
    rw [flatMap_cons, Answer.encode] at h
    simp only [append_assoc] at h
    have hname := r.owner.name h
    -- the fields behind the name, one after the other
    have htype := drop_append_of h
    have hclass := drop_append_of htype
    have httl := drop_append_of hclass
    have hlen := drop_append_of httl
    have hdata := drop_append_of hlen
    have hwtype := word_of_drop r.rdata.rtype_lt htype
    have hwlen := word_of_drop r.rdata.length_lt hlen
    have hhead := length_of_drop hlen nofun
    simp only [packH, packI, length_append, length_cons, length_nil, Nat.reduceAdd] at hdata hwlen hhead
    rw [show off + r.owner.encode.length + 2 + 2 + 4 = off + r.owner.encode.length + 8 by omega] at hwlen
    rw [show off + r.owner.encode.length + 2 + 2 + 4 + 2 = off + r.owner.encode.length + 10 by omega] at hdata
    have hrest := ih (drop_append_of hdata)
    have hrecord : recordAt data (off + r.owner.encode.length) = r.record := by
      rw [recordAt, hwtype, hwlen, slice, hdata, take_left]
      rfl
    rw [length_cons, map_cons, ← hrecord]
    refine .cons hname ?_ ?_
    · have hle := congrArg List.length hdata
      rw [length_drop, length_append] at hle
      rw [hwlen]
      omega
    · rw [hwlen]
      exact hrest

theorem word_respond {rs : List Answer} (hd : Head) (qpart more : List UInt8) (ht : txn < 65536)
    (hn : rs.length < 65536) :
    let data := respond txn hd qpart rs more
    word data 0 = txn ∧ word data 2 = hd.flags.toNat ∧ word data 4 = 1 ∧ word data 6 = rs.length ∧ 12 ≤ data.length ∧
      data.drop 12 = qpart ++ (rs.flatMap Answer.encode ++ more) := by
  intro data
  have hdata : data.drop 0 = packH txn ++ (packH hd.flags.toNat ++ (packH 1 ++ (packH rs.length ++
      (packH hd.ns.toNat ++ (packH hd.ar.toNat ++ (qpart ++ (rs.flatMap Answer.encode ++ more))))))) := by
    simp [data, respond]
  have hflags := drop_append_of hdata
  have hqd := drop_append_of hflags
  have han := drop_append_of hqd
  have hns := drop_append_of han
  have har := drop_append_of hns
  exact ⟨word_of_drop ht hdata, word_of_drop hd.flags.toNat_lt hflags, word_of_drop (by decide) hqd,
    word_of_drop hn han, length_of_drop har nofun, drop_append_of har⟩

theorem exists_labels (hl : ∀ l ∈ ls, 1 ≤ l.length ∧ l.length ≤ 63) :
    ∃ labels : List Label, labels.flatMap Label.encode = wire ls := by
  induction ls with
  | nil => exact ⟨[], rfl⟩
  | cons l ls ih =>
    obtain ⟨labels, hlabels⟩ := ih fun l hm => hl l (mem_cons_of_mem _ hm)
    refine ⟨⟨l, hl l mem_cons_self⟩ :: labels, ?_⟩
    show UInt8.ofNat l.length :: l ++ labels.flatMap Label.encode = _
    rw [hlabels]
    rfl

theorem parseDnsAnswer_respond (inet : Inet) {hd : Head} {more : List UInt8}
    {rs : List Answer} (ht : txn < 65536) (hn : rs.length < 65536) (hl : ∀ l ∈ ls, 1 ≤ l.length ∧ l.length ≤ 63)
    (htc : hd.flags.toNat.testBit 9 = false) (hr : hd.flags.toNat % 16 = 0) :
    parseDnsAnswer inet (respond txn hd (question ls qtype) rs more) txn =
      .ok (rs.filterMap fun r => r.rdata.address inet) := by
  obtain ⟨hid, hflags, hqd, han, hlen, hdrop⟩ := word_respond hd (question ls qtype) more ht hn
  generalize respond txn hd (question ls qtype) rs more = data at *
  -- the name of the question is an owner name with the root at its end
  obtain ⟨labels, hlabels⟩ := exists_labels hl
  let owner : Owner := ⟨labels, .root⟩
  have hwire : owner.encode = wire ls ++ [0] := congrArg (· ++ [0]) hlabels
  rw [question, ← hwire, append_assoc] at hdrop
  have hname := owner.name hdrop
  have hfields := drop_append_of hdrop
  have hrest := drop_append_of hfields
  have hquestion : Questions data (word data 4) 12 (12 + owner.encode.length + 4) := by
    rw [hqd]
    exact .cons hname (length_of_drop hfields nofun) .nil
  have hrecords : Records data (word data 6) (12 + owner.encode.length + 4) (rs.map Answer.record) := by
    rw [han]
    exact records_answers rs hrest
  have hans : Answers data txn := ⟨hlen, hid, by rw [hflags]; exact htc⟩
  have hwell : WellFormed inet data txn _ := .found hans (by rw [rcode, hflags]; exact hr) hquestion hrecords
  rw [hwell.parse, addresses, filterMap_map]
  congr 2
  funext r
  exact r.address_record inet

/-! ## The round trip -/

def asked (txn : ℕ) (ls : List (List UInt8)) (qtype : ℕ) : Message where
  txn := txn
  flags := 0x0100
  questions := [⟨ls, .root, qtype, 1⟩]
  answers := []
  authority := []
  additional := [⟨[], .root, 41, 4096, 0, []⟩]

/-- The query for a name is read back whole, and the parser returns the addresses of every list of answers behind
it. -/
theorem query_round_trip (idna : String → Except Exn (List UInt8)) (name : HostName) (ls : List (List UInt8))
    (trailing : Bool) (txn qtype : UInt16) (hl : ∀ l ∈ ls, 1 ≤ l.length ∧ l.length ≤ 63 ∧ dot ∉ l)
    (he : encodeQueryName idna name = .ok (dotted ls trailing)) :
    ∃ hdr qpart, hdr.length = 12 ∧
      buildQuery idna txn.toNat name qtype.toNat = .ok (txn.toNat, hdr ++ qpart ++ opt) ∧
      readMessage (hdr ++ qpart ++ opt) = some (asked txn.toNat ls qtype.toNat, []) ∧
      ∀ (inet : Inet) (hd : Head) (rs : List Answer) (more : List UInt8), rs.length < 65536 →
        hd.flags.toNat.testBit 9 = false → hd.flags.toNat % 16 = 0 →
        parseDnsAnswer inet (respond txn.toNat hd qpart rs more) txn.toNat =
          .ok (rs.filterMap fun r => r.rdata.address inet) := by
  have hbound : ∀ l ∈ ls, 1 ≤ l.length ∧ l.length ≤ 63 := fun l hm => ⟨(hl l hm).1, (hl l hm).2.1⟩
  refine ⟨[txn.toNat, 0x0100, 1, 0, 0, 1].flatMap packH, question ls qtype.toNat, rfl, ?_, ?_, ?_⟩
  · exact buildQuery_eq txn.toNat_lt qtype.toNat_lt hl he
  · exact readMessage_query txn.toNat_lt qtype.toNat_lt hbound
  · intro inet hd rs more hn htc hr
    exact parseDnsAnswer_respond inet txn.toNat_lt hn hbound htc hr

/-- `"a.bc."`. -/
def twoLabels : List UInt8 := [0x61, dot, 0x62, 0x63, dot]

def twoAnswers : List Answer :=
  [⟨⟨[⟨[0x61], by decide⟩], .pointer 0xC0 14 (by decide)⟩, 1, 60, .other 5 ⟨[0xC0, 14], by decide⟩ (by decide)⟩,
    ⟨⟨[], .pointer 0xC0 14 (by decide)⟩, 1, 60, .a ⟨[192, 0, 2, 1], rfl⟩⟩]

theorem query_round_trip_twoAnswers : ∃ hdr qpart,
      buildQuery (fun _ => .error .valueError) 0x1234 (.bytes twoLabels) 28 = .ok (0x1234, hdr ++ qpart ++ opt) ∧
      readMessage (hdr ++ qpart ++ opt) = some (asked 0x1234 [[0x61], [0x62, 0x63]] 28, []) ∧
      parseDnsAnswer DnsAnswer.dotted (respond 0x1234 ⟨0x8180, 0, 0⟩ qpart twoAnswers []) 0x1234 =
        .ok ["192.0.2.1"] := by
  obtain ⟨hdr, qpart, -, hbuild, hread, hparse⟩ := query_round_trip (fun _ => .error .valueError) (.bytes twoLabels)
    [[0x61], [0x62, 0x63]] true 0x1234 28 (by decide) rfl
  refine ⟨hdr, qpart, hbuild, hread, ?_⟩
  exact (hparse DnsAnswer.dotted ⟨0x8180, 0, 0⟩ twoAnswers [] (by decide) (by decide) (by decide)).trans
    (by decide +kernel)

end Runloom.DnsQuery
