import Runloom.DnsQuery
import Runloom.DualLookup

/-!
# The lookup of one query type

Model of `_candidate_names`, `_query_nameserver` and `_resolve_qtype`, with its cache, its loop over the candidate
names and the nameservers, and the fall back to the platform's `getaddrinfo`.  `DualLookup` is the join of the two
lookups of `_resolve_dual`.
-/

namespace Runloom.DnsResolve

open DnsAnswer DnsQuery DualLookup

/-- `_QTYPE_A` and `_QTYPE_AAAA`. -/
def code : Qtype → ℕ
  | .a => qtypeA
  | .aaaa => qtypeAAAA

/-- `_get_search_conf`. -/
structure SearchConf where
  search : List String
  ndots : ℕ

/-- `suffix.rstrip(".")`. -/
def rstripDots (suffix : String) : String :=
  String.ofList (suffix.toList.reverse.dropWhile (· = '.')).reverse

/-- `_candidate_names`. -/
def candidateNames (conf : SearchConf) (name : String) : List String :=
  if conf.search = [] ∨ name.toList.getLast? = some '.' then [name]
  else
    let hasNdots := conf.ndots ≤ name.toList.count '.'
    (if hasNdots then [name] else []) ++ conf.search.map (fun suffix => name ++ "." ++ rstripDots suffix) ++
      (if hasNdots then [] else [name])

/-- What a lookup meets: the ids that are drawn, the datagram of each nameserver (`none` for an `OSError` or a
timeout), and what the platform's `getaddrinfo` finds. -/
structure Net where
  inet : Inet
  conf : SearchConf
  resolvers : List String
  idna : String → Except Exn (List UInt8)
  txn : String → Qtype → ℕ
  recv : List UInt8 → String → Option (List UInt8)
  libc : String → Qtype → List String

/-- `_dns_result_cache`: the addresses and the time until which they hold. -/
abbrev Cache := String × Qtype → Option (List String × ℤ)

namespace Net

variable (net : Net)

/-- `_query_nameserver`. -/
def queryNameserver (packet : List UInt8) (txn : ℕ) (ns : String) : Except Exn (List String) :=
  match net.recv packet ns with
  | none => .error (.osError "timed out")
  | some data => parseDnsAnswer net.inet data txn

/-- The loop over the nameservers: the first answer, and the last error. -/
def askServers (packet : List UInt8) (txn : ℕ) :
    List String → Option Exn → Except Exn (Option (List String) × Option Exn)
  | [], lastErr => .ok (none, lastErr)
  | ns :: rest, lastErr =>
    match net.queryNameserver packet txn ns with
    | .ok addrs => .ok (some addrs, lastErr)
    | .error (.osError m) => askServers packet txn rest (some (.osError m))
    | .error e => .error e

/-- How the loop over the candidates ends. -/
inductive Asked where
  | found (addrs : List String)
  | nothing (lastErr : Option Exn) (sawNxdomain : Bool)

def askCandidates (q : Qtype) : List String → Option Exn → Bool → Except Exn Asked
  | [], lastErr, saw => .ok (.nothing lastErr saw)
  | cand :: rest, lastErr, saw => do
    let (txn, packet) ← buildQuery net.idna (net.txn cand q) (.str cand) (code q)
    let (answer, lastErr) ← net.askServers packet txn net.resolvers lastErr
    match answer with
    | none => askCandidates q rest lastErr saw
    | some addrs => if addrs = [] then askCandidates q rest lastErr true else return .found addrs

/-- `_DNS_CACHE_TTL`. -/
def cacheTtl : ℤ := 60

/-- `_resolve_qtype`: what it returns or raises, and the cache after it. -/
def resolveQtype (cache : Cache) (now : ℤ) (name : String) (q : Qtype) : Except Exn (List String) × Cache :=
  let key := (name.toLower, q)
  let store (addrs : List String) : Cache := Function.update cache key (some (addrs, now + cacheTtl))
  match (cache key).filter fun entry => now < entry.2 with
  | some entry => (.ok entry.1, cache)
  | none =>
    if net.resolvers = [] then (.ok (net.libc name q), store (net.libc name q))
    else
      match net.askCandidates q (candidateNames net.conf name) none false with
      | .error e => (.error e, cache)
      | .ok (.found addrs) => (.ok addrs, store addrs)
      | .ok (.nothing lastErr sawNxdomain) =>
        if sawNxdomain then (.ok [], store [])
        else if net.libc name q ≠ [] then (.ok (net.libc name q), store (net.libc name q))
        else (.error (lastErr.getD (.osError "no DNS nameservers")), cache)

/-- The two lookups of `_resolve_dual`, on different entries of the cache. -/
def lookup (cache : Cache) (now : ℤ) (name : String) (wantV4 wantV6 : Bool) : Lookup String where
  wantV4 := wantV4
  wantV6 := wantV6
  outcome q := (net.resolveQtype cache now name q).1.toOption

end Net

end Runloom.DnsResolve

/-!
## The families of resolved addresses

`_resolve_dual` labels an address with the family it asked for, and the parser returns the addresses of both families.
`used` is the packet whose addresses a lookup returns; the labels are right exactly when that packet has addresses of
the type that was asked for only.
-/

namespace Runloom.DnsResolve

open DnsAnswer DnsQuery DualLookup Transition List

variable {net : Net} {q : Qtype} {packet d : List UInt8} {txn : ℕ} {cands : List String}

/-! ## The packet that is used -/

def Net.firstAccepted (net : Net) (packet : List UInt8) (txn : ℕ) : List String → Option (List UInt8)
  | [] => none
  | ns :: rest =>
    match net.recv packet ns with
    | none => net.firstAccepted packet txn rest
    | some d =>
      match parseDnsAnswer net.inet d txn with
      | .ok _ => some d
      | .error _ => net.firstAccepted packet txn rest

/-- The first accepted reply with an address, and its id. -/
def Net.used (net : Net) (q : Qtype) : List String → Option (List UInt8 × ℕ)
  | [] => none
  | cand :: rest =>
    match buildQuery net.idna (net.txn cand q) (.str cand) (code q) with
    | .error _ => none
    | .ok (txn, packet) =>
      match net.firstAccepted packet txn net.resolvers with
      | none => net.used q rest
      | some d =>
        match parseDnsAnswer net.inet d txn with
        | .ok (_ :: _) => some (d, txn)
        | _ => net.used q rest

/-- A nameserver sent `d` in reply to a query of type `q`. -/
def Net.Received (net : Net) (cands : List String) (q : Qtype) (d : List UInt8) (txn : ℕ) : Prop :=
  ∃ cand ∈ cands, ∃ ns ∈ net.resolvers, ∃ packet,
    buildQuery net.idna (net.txn cand q) (.str cand) (code q) = .ok (txn, packet) ∧ net.recv packet ns = some d

theorem askServers_spec (net : Net) (packet : List UInt8) (txn : ℕ) (l : List String) (err : Option Exn) :
    match net.firstAccepted packet txn l with
    | some d => ∃ addrs err', parseDnsAnswer net.inet d txn = .ok addrs ∧
        net.askServers packet txn l err = .ok (some addrs, err') ∧ ∃ ns ∈ l, net.recv packet ns = some d
    | none => ∃ err', net.askServers packet txn l err = .ok (none, err') := by
  induction l generalizing err with
  | nil => exact ⟨err, rfl⟩
  | cons ns l ih =>
    rw [Net.firstAccepted, Net.askServers, Net.queryNameserver]
    -- a nameserver that gives nothing leaves the rest to be asked
    have hskip : ∀ m, match net.firstAccepted packet txn l with
        | some d => ∃ addrs err', parseDnsAnswer net.inet d txn = .ok addrs ∧
            net.askServers packet txn l (some (.osError m)) = .ok (some addrs, err') ∧
              ∃ ns' ∈ ns :: l, net.recv packet ns' = some d
        | none => ∃ err', net.askServers packet txn l (some (.osError m)) = .ok (none, err') := by
      intro m
      have hrest := ih (some (.osError m))
      cases hfirst : net.firstAccepted packet txn l with
      | none =>
        rw [hfirst] at hrest
        exact hrest
      | some d =>
        rw [hfirst] at hrest
        obtain ⟨addrs, err', hparse, hask, ns', hns', hrecv⟩ := hrest
        exact ⟨addrs, err', hparse, hask, ns', mem_cons_of_mem _ hns', hrecv⟩
    cases hrecv : net.recv packet ns with
    | none => exact hskip _
    | some d =>
      dsimp only
      cases hparse : parseDnsAnswer net.inet d txn with
      | ok addrs => exact ⟨addrs, err, hparse, rfl, ns, mem_cons_self, hrecv⟩
      | error e =>
        obtain ⟨m, rfl⟩ := parseDnsAnswer_onlyOsError net.inet d txn e hparse
        exact hskip m

theorem askCandidates_spec (net : Net) (q : Qtype) (cands : List String) (err : Option Exn) (saw : Bool) :
    match net.used q cands with
    | some (d, txn) => ∃ addrs, addrs ≠ [] ∧ parseDnsAnswer net.inet d txn = .ok addrs ∧
        net.askCandidates q cands err saw = .ok (.found addrs) ∧ net.Received cands q d txn
    | none => ∀ addrs, net.askCandidates q cands err saw ≠ .ok (.found addrs) := by
  induction cands generalizing err saw with
  | nil => exact nofun
  | cons cand cands ih =>
    rw [Net.used, Net.askCandidates]
    cases hbuild : buildQuery net.idna (net.txn cand q) (.str cand) (code q) with
    | error e => exact nofun
    | ok asked =>
      obtain ⟨txn, packet⟩ := asked
      -- a candidate without addresses leaves the rest to be asked
      have hskip : ∀ err saw, match net.used q cands with
          | some (d, txn) => ∃ addrs, addrs ≠ [] ∧ parseDnsAnswer net.inet d txn = .ok addrs ∧
              net.askCandidates q cands err saw = .ok (.found addrs) ∧ net.Received (cand :: cands) q d txn
          | none => ∀ addrs, net.askCandidates q cands err saw ≠ .ok (.found addrs) := by
        intro err saw
        have hrest := ih err saw
        cases hused : net.used q cands with
        | none =>
          rw [hused] at hrest
          exact hrest
        | some x =>
          rw [hused] at hrest
          obtain ⟨addrs, hne, hparse, hask, c, hc, hfrom⟩ := hrest
          exact ⟨addrs, hne, hparse, hask, c, mem_cons_of_mem _ hc, hfrom⟩
      have hservers := askServers_spec net packet txn net.resolvers err
      simp only [bind, Except.bind]
      cases hfirst : net.firstAccepted packet txn net.resolvers with
      | none =>
        rw [hfirst] at hservers
        obtain ⟨err', hask⟩ := hservers
        simp only [hask]
        exact hskip err' saw
      | some d =>
        rw [hfirst] at hservers
        obtain ⟨addrs, err', hparse, hask, ns, hns, hrecv⟩ := hservers
        simp only [hask, hparse]
        cases addrs with
        | nil =>
          rw [if_pos rfl]
          exact hskip err' true
        | cons a as =>
          rw [if_neg nofun]
          exact ⟨a :: as, nofun, hparse, rfl, cand, mem_cons_self, ns, hns, packet, hbuild, hrecv⟩

theorem resolveQtype_spec (net : Net) {cache : Cache} {now : ℤ} {name : String}
    (hmiss : (cache (name.toLower, q)).filter (fun entry => now < entry.2) = none) :
    match net.used q (candidateNames net.conf name) with
    | some (d, txn) => ∃ addrs, addrs ≠ [] ∧ parseDnsAnswer net.inet d txn = .ok addrs ∧
        (net.resolveQtype cache now name q).1 = .ok addrs ∧ net.Received (candidateNames net.conf name) q d txn
    | none => ∀ addrs, (net.resolveQtype cache now name q).1 = .ok addrs → addrs ⊆ net.libc name q := by
  have hask := askCandidates_spec net q (candidateNames net.conf name) none false
  unfold Net.resolveQtype
  simp only [hmiss]
  by_cases hres : net.resolvers = []
  · -- nobody is asked
    have hnone : net.used q (candidateNames net.conf name) = none := by
      cases hused : net.used q (candidateNames net.conf name) with
      | none => rfl
      | some x =>
        rw [hused] at hask
        obtain ⟨-, -, -, -, -, -, ns, hns, -⟩ := hask
        rw [hres] at hns
        exact absurd hns not_mem_nil
    rw [hnone, if_pos hres]
    intro addrs haddrs
    cases haddrs
    exact List.Subset.refl _
  rw [if_neg hres]
  cases hused : net.used q (candidateNames net.conf name) with
  | some x =>
    rw [hused] at hask
    obtain ⟨addrs, hne, hparse, hfound, hfrom⟩ := hask
    dsimp only
    rw [hfound]
    exact ⟨addrs, hne, hparse, rfl, hfrom⟩
  | none =>
    rw [hused] at hask
    intro addrs haddrs
    cases hend : net.askCandidates q (candidateNames net.conf name) none false with
    | error e =>
      rw [hend] at haddrs
      cases haddrs
    | ok asked =>
      rw [hend] at haddrs
      cases asked with
      | found found => exact absurd hend (hask found)
      | nothing err saw =>
        dsimp only at haddrs
        split at haddrs
        · cases haddrs
          exact nil_subset _
        · split at haddrs <;> cases haddrs
          exact List.Subset.refl _

/-! ## The join -/

def Asks (wantV4 wantV6 : Bool) : Qtype → Prop
  | .a => wantV4 = true ∨ wantV6 = false
  | .aaaa => wantV6 = true ∨ wantV4 = false

def family : Qtype → Family
  | .a => .inet
  | .aaaa => .inet6

variable {l : Lookup String} {s t : State String}

def Gathered (l : Lookup String) (x : Family × String) : Prop :=
  ∃ q, Asks l.wantV4 l.wantV6 q ∧ x.1 = family q ∧ x.2 ∈ l.answers q

def Holds (l : Lookup String) : CallerPc String → Prop
  | .start => True
  | .raised => True
  | .returned out => ∀ x ∈ out, Gathered l x
  | .collectAaaa out => (∀ q, Asks l.wantV4 l.wantV6 q) ∧ ∀ x ∈ out, Gathered l x
  | _ => ∀ q, Asks l.wantV4 l.wantV6 q

structure Gathers (l : Lookup String) (s : State String) : Prop where
  results {q : Qtype} {v : List String} (h : s.results q = some v) : v = l.answers q
  caller : Holds l s.caller

theorem gathered_map {as : List String} (hq : Asks l.wantV4 l.wantV6 q) (has : as ⊆ l.answers q) :
    ∀ x ∈ as.map (family q, ·), Gathered l x := by
  intro x hx
  obtain ⟨a, ha, rfl⟩ := mem_map.mp hx
  exact ⟨q, hq, rfl, has ha⟩

theorem Gathers.start (hI : Gathers l s) : Gathers l (s.start l) := by
  unfold State.start
  split_ifs with h4 h6
  · cases hout : l.outcome .a with
    | none => exact ⟨hI.results, trivial⟩
    | some as =>
      refine ⟨hI.results, gathered_map (q := .a) (.inl h4.1) ?_⟩
      rw [Lookup.answers, hout]
      exact List.Subset.refl _
  · cases hout : l.outcome .aaaa with
    | none => exact ⟨hI.results, trivial⟩
    | some as =>
      refine ⟨hI.results, gathered_map (q := .aaaa) (.inl h6.1) ?_⟩
      rw [Lookup.answers, hout]
      exact List.Subset.refl _
  · refine ⟨hI.results, fun q => ?_⟩
    cases q with
    | a | aaaa => cases h : l.wantV4 <;> cases h' : l.wantV6 <;> simp_all [Asks]

theorem Gathers.stored (hI : Gathers l s) (q : Qtype) : (s.results q).getD [] ⊆ l.answers q := by
  cases hq : s.results q with
  | none => exact nil_subset _
  | some v =>
    rw [hI.results hq]
    exact List.Subset.refl _

theorem Gathers.step {a : Action} (hI : Gathers l s) (hs : (resolveDual l).step s a = some t) : Gathers l t := by
  cases a with
  | caller =>
    simp only [resolveDual, DualLookup.step, State.callerStep] at hs
    have hc := hI.caller
    split at hs
    case h_1 => cases hs; exact hI.start
    case h_2 h => rw [h] at hc; cases hs; exact ⟨hI.results, hc⟩
    case h_3 h => rw [h] at hc; cases hs; exact ⟨hI.results, hc⟩
    case h_4 h => rw [h] at hc; cases hs; exact ⟨hI.results, hc⟩
    case h_5 h =>
      split at hs
      · rw [h] at hc; cases hs; exact ⟨hI.results, hc⟩
      · cases hs
    case h_6 h => rw [h] at hc; cases hs; exact ⟨hI.results, hc⟩
    case h_7 h => rw [h] at hc; cases hs; exact ⟨hI.results, hc⟩
    case h_8 h =>
      rw [h] at hc
      cases hs
      exact ⟨hI.results, hc, gathered_map (q := .a) (hc .a) (hI.stored .a)⟩
    case h_9 out h =>
      rw [h] at hc
      cases hs
      refine ⟨hI.results, fun x hx => ?_⟩
      rcases mem_append.mp hx with hx | hx
      · exact hc.2 x hx
      · exact gathered_map (q := .aaaa) (hc.1 .aaaa) (hI.stored .aaaa) x hx
    case h_10 => cases hs
    case h_11 => cases hs
  | runner q =>
    simp only [resolveDual, DualLookup.step, State.runnerStep] at hs
    split at hs
    case h_1 => cases hs
    case h_2 =>
      cases hs
      refine ⟨fun {q' v} hq' => ?_, hI.caller⟩
      simp only [State.runnerTo] at hq'
      by_cases hqq : q' = q
      · subst hqq
        rw [Function.update_self] at hq'
        exact (Option.some.inj hq').symm
      · rw [Function.update_of_ne hqq] at hq'
        exact hI.results hq'
    case h_3 => cases hs; exact ⟨hI.results, hI.caller⟩
    case h_4 => cases hs; exact ⟨hI.results, hI.caller⟩
    case h_5 => cases hs; exact ⟨hI.results, hI.caller⟩
    case h_6 => cases hs; exact ⟨hI.results, hI.caller⟩
    case h_7 => cases hs
  | spurious =>
    simp only [resolveDual, DualLookup.step] at hs
    split at hs
    next h =>
      have hc := hI.caller
      rw [h] at hc
      cases hs
      exact ⟨hI.results, hc⟩
    next => cases hs

theorem gathered_of_returned (hs : (resolveDual l).Reachable s) {out : List (Family × String)}
    (hout : s.caller = .returned out) : ∀ x ∈ out, Gathered l x := by
  have hI : Gathers l s := by
    refine hs.invariant (P := Gathers l) ?_ fun s a t hI _ hs => hI.step hs
    intro s hi
    refine ⟨fun {q v} hq => ?_, ?_⟩
    · rw [hi.results] at hq
      cases hq
    · rw [hi.caller]
      trivial
  have hc := hI.caller
  rw [hout] at hc
  exact hc

theorem exists_returned {as : List String} (hq : Asks l.wantV4 l.wantV6 q) (has : l.outcome q = some as) :
    ∃ s out, (resolveDual l).Reachable s ∧ s.caller = .returned out ∧ ∀ a ∈ as, (family q, a) ∈ out := by
  obtain ⟨want4, want6, outcome⟩ := l
  have hanswers : (outcome q).getD [] = as := by
    rw [show outcome q = some as from has]
    rfl
  have hinit : (resolveDual ⟨want4, want6, outcome⟩).Reachable (State.initial 0) := .init (init_initial 0)
  -- both lookups, one after the other
  have hboth : ∀ w : Bool, want4 = w → want6 = w → ∃ s, (resolveDual ⟨want4, want6, outcome⟩).Reachable s ∧
      s.caller = .returned (((outcome .a).getD []).map (Family.inet, ·) ++
        ((outcome .aaaa).getD []).map (Family.inet6, ·)) := by
    intro w h4 h6
    subst h4 h6
    cases want6 with
    | false | true => exact ⟨_, hinit.run (System.meets_true runOneByOne) rfl, rfl⟩
  have hmem : ∀ a ∈ as, (family q, a) ∈ ((outcome .a).getD []).map (Family.inet, ·) ++
      ((outcome .aaaa).getD []).map (Family.inet6, ·) := by
    intro a ha
    rw [← hanswers] at ha
    cases q with
    | a => exact mem_append_left _ (mem_map_of_mem ha)
    | aaaa => exact mem_append_right _ (mem_map_of_mem ha)
  cases want4 with
  | false =>
    cases want6 with
    | false =>
      obtain ⟨s, hs, hout⟩ := hboth false rfl rfl
      exact ⟨s, _, hs, hout, hmem⟩
    | true =>
      cases q with
      | a => cases hq <;> contradiction
      | aaaa =>
        refine ⟨_, as.map (Family.inet6, ·), .step (a := .caller) hinit trivial rfl, ?_, fun a => mem_map_of_mem⟩
        show ((State.initial 0).start ⟨false, true, outcome⟩).caller = _
        rw [State.start, if_neg (by simp), if_pos (by simp)]
        dsimp only at has
        simp only [has]
        rfl
  | true =>
    cases want6 with
    | true =>
      obtain ⟨s, hs, hout⟩ := hboth true rfl rfl
      exact ⟨s, _, hs, hout, hmem⟩
    | false =>
      cases q with
      | aaaa => cases hq <;> contradiction
      | a =>
        refine ⟨_, as.map (Family.inet, ·), .step (a := .caller) hinit trivial rfl, ?_, fun a => mem_map_of_mem⟩
        show ((State.initial 0).start ⟨true, false, outcome⟩).caller = _
        rw [State.start, if_pos (by simp)]
        dsimp only at has
        simp only [has]
        rfl

/-! ## The labels -/

def packedLength : Qtype → ℕ
  | .a => 4
  | .aaaa => 16

def text (inet : Inet) : Qtype → List UInt8 → String
  | .a => inet.ntoa
  | .aaaa => inet.ntop

/-- The data of a record of the type asked for, in a packet received for that question. -/
def FromRecord (net : Net) (name : String) (q : Qtype) (packed : List UInt8) : Prop :=
  ∃ d txn rs fs, net.Received (candidateNames net.conf name) q d txn ∧ Walk d txn rs fs ∧ ⟨code q, packed⟩ ∈ rs

/-- An address of its family, from a record of that type or from the platform. -/
def Labelled (net : Net) (name : String) (x : Family × String) : Prop :=
  ∃ q packed, x.1 = family q ∧ packed.length = packedLength q ∧ x.2 = text net.inet q packed ∧
    (FromRecord net name q packed ∨ x.2 ∈ net.libc name q)

/-- Only the texts of IPv6 addresses have a colon, and `getaddrinfo` finds addresses of the family asked for. -/
structure Platform (net : Net) (name : String) : Prop where
  ntoa (packed : List UInt8) : ':' ∉ (net.inet.ntoa packed).toList
  ntop (packed : List UInt8) : ':' ∈ (net.inet.ntop packed).toList
  libc {q : Qtype} {a : String} (ha : a ∈ net.libc name q) :
    ∃ packed, packed.length = packedLength q ∧ a = text net.inet q packed

/-- Every address record of the packet is of the type that was asked for. -/
def OneFamily (q : Qtype) (d : List UInt8) (txn : ℕ) : Prop :=
  ∀ rs fs, Walk d txn rs fs → ∀ r ∈ rs, ∀ q', r.rtype = code q' → r.rdata.length = packedLength q' → q' = q

variable {name : String}

theorem Platform.text_inj (hp : Platform net name) {q q' : Qtype} {b b' : List UInt8}
    (h : text net.inet q b = text net.inet q' b') : q = q' := by
  cases q with
  | a =>
    cases q' with
    | a => rfl
    | aaaa =>
      have hcolon := hp.ntop b'
      rw [show net.inet.ntop b' = net.inet.ntoa b from h.symm] at hcolon
      exact absurd hcolon (hp.ntoa b)
  | aaaa =>
    cases q' with
    | a =>
      have hcolon := hp.ntop b
      rw [show net.inet.ntop b = net.inet.ntoa b' from h] at hcolon
      exact absurd hcolon (hp.ntoa b')
    | aaaa => rfl

theorem address_eq_some {r : Record} {inet : Inet} {a : String} :
    r.address inet = some a ↔ ∃ q, r.rtype = code q ∧ r.rdata.length = packedLength q ∧ a = text inet q r.rdata := by
  unfold Record.address
  constructor
  · intro h
    split_ifs at h with h4 h16
    · cases h
      exact ⟨.a, h4.1, h4.2, rfl⟩
    · cases h
      exact ⟨.aaaa, h16.1, h16.2, rfl⟩
  · rintro ⟨q, htype, hlen, rfl⟩
    cases q with
    | a => exact if_pos ⟨htype, hlen⟩
    | aaaa =>
      have hnot : ¬(r.rtype = qtypeA ∧ r.rdata.length = 4) := by
        rintro ⟨h, -⟩
        exact absurd (htype.symm.trans h) (by decide)
      rw [if_neg hnot]
      exact if_pos ⟨htype, hlen⟩

theorem walk_of_addresses {inet : Inet} {addrs : List String} (hparse : parseDnsAnswer inet d txn = .ok addrs)
    (hne : addrs ≠ []) : ∃ rs fs, Walk d txn rs fs ∧ addrs = addresses inet rs := by
  refine Walk.of_parse hparse fun h3 => hne ?_
  have hans := Answers.of_parse hparse
  rw [parseDnsAnswer_of_answers hans, if_pos h3] at hparse
  cases hparse
  rfl

variable {cache : Cache} {now : ℤ}

theorem labelled_of_oneFamily (hp : Platform net name)
    (hmiss : (cache (name.toLower, q)).filter (fun entry => now < entry.2) = none)
    (hone : ∀ d txn, net.used q (candidateNames net.conf name) = some (d, txn) → OneFamily q d txn) {a : String}
    (ha : a ∈ ((net.resolveQtype cache now name q).1.toOption).getD []) : Labelled net name (family q, a) := by
  have hspec := resolveQtype_spec net hmiss
  cases hused : net.used q (candidateNames net.conf name) with
  | none =>
    rw [hused] at hspec
    cases hres : (net.resolveQtype cache now name q).1 with
    | error e =>
      rw [hres] at ha
      exact absurd ha not_mem_nil
    | ok addrs =>
      rw [hres] at ha
      have hlibc := hspec addrs hres ha
      obtain ⟨packed, hlen, htext⟩ := hp.libc hlibc
      exact ⟨q, packed, rfl, hlen, htext, .inr hlibc⟩
  | some x =>
    obtain ⟨d, txn⟩ := x
    rw [hused] at hspec
    obtain ⟨addrs, hne, hparse, hres, hfrom⟩ := hspec
    rw [hres] at ha
    obtain ⟨rs, fs, hwalk, rfl⟩ := walk_of_addresses hparse hne
    obtain ⟨r, hr, haddr⟩ := mem_filterMap.mp ha
    obtain ⟨q', htype, hlen, htext⟩ := address_eq_some.mp haddr
    cases hone d txn hused rs fs hwalk r hr q' htype hlen
    refine ⟨q, r.rdata, rfl, hlen, htext, .inl ⟨d, txn, rs, fs, hfrom, hwalk, ?_⟩⟩
    rw [← htype]
    exact hr

/-- Every pair that `_resolve_dual` returns has the family of its address iff the packets used have addresses of
their own type only. -/
theorem labels_right_iff (net : Net) (cache : Cache) (now : ℤ) (name : String) (wantV4 wantV6 : Bool)
    (hp : Platform net name)
    (hmiss : ∀ q, (cache (name.toLower, q)).filter (fun entry => now < entry.2) = none) :
    (∀ s out, (resolveDual (net.lookup cache now name wantV4 wantV6)).Reachable s → s.caller = .returned out →
        ∀ x ∈ out, Labelled net name x) ↔
      ∀ q, Asks wantV4 wantV6 q → ∀ d txn, net.used q (candidateNames net.conf name) = some (d, txn) →
        OneFamily q d txn := by
  constructor
  · intro hall q hq d txn hused rs fs hwalk r hr q' htype hlen
    have hspec := resolveQtype_spec net (hmiss q)
    rw [hused] at hspec
    obtain ⟨addrs, -, hparse, hres, -⟩ := hspec
    -- the address of the record is returned with the label of the question
    have haddr : text net.inet q' r.rdata ∈ addrs := by
      rw [hwalk.parse] at hparse
      cases hparse
      exact mem_filterMap.mpr ⟨r, hr, address_eq_some.mpr ⟨q', htype, hlen, rfl⟩⟩
    have hout : (net.lookup cache now name wantV4 wantV6).outcome q = some addrs := by
      show (net.resolveQtype cache now name q).1.toOption = _
      rw [hres]
      rfl
    obtain ⟨s, out, hs, hcaller, hin⟩ := exists_returned hq hout
    obtain ⟨q'', packed, hfam, -, htext, -⟩ := hall s out hs hcaller _ (hin _ haddr)
    have hqq : q = q'' := by
      cases q <;> cases q'' <;> first | rfl | cases hfam
    rw [hqq]
    exact hp.text_inj htext
  · intro hone s out hs hcaller x hx
    obtain ⟨q, hq, hfam, ha⟩ := gathered_of_returned hs hcaller x hx
    have hlabel := labelled_of_oneFamily hp (hmiss q) (hone q hq) ha
    rwa [← hfam] at hlabel

def sampleTexts : Inet :=
  ⟨fun packed => if packed = [192, 0, 2, 1] then "192.0.2.1" else "0.0.0.0",
    fun packed => if packed = [0x20, 0x01, 0x0D, 0xB8, 0, 0, 0, 0, 0, 0, 0, 0, 0, 0, 0, 1] then "2001:db8::1" else "::"⟩

/-- One nameserver that sends `reply` to every query. -/
def oneServer (reply : List UInt8) : Net where
  inet := sampleTexts
  conf := ⟨[], 1⟩
  resolvers := ["192.0.2.53"]
  idna := fun _ => .error .valueError
  txn := fun _ _ => 0x1234
  recv := fun _ _ => some reply
  libc := fun _ _ => []

theorem oneServer_platform (reply : List UInt8) (name : String) : Platform (oneServer reply) name where
  ntoa packed := by
    show ':' ∉ (if _ then _ else _ : String).toList
    split <;> decide
  ntop packed := by
    show ':' ∈ (if _ then _ else _ : String).toList
    split <;> decide
  libc ha := absurd ha not_mem_nil

def addressReply : List UInt8 :=
  [0x12, 0x34, 0x81, 0x80, 0, 0, 0, 1, 0, 0, 0, 0, 0, 0, 1, 0, 1, 0, 0, 0, 60, 0, 4, 192, 0, 2, 1]

theorem walk_addressReply : Walk addressReply 0x1234 [⟨1, [192, 0, 2, 1]⟩] [] := by
  have hname : LooseName addressReply 12 13 [] := .root rfl
  exact .mk ⟨by decide, by decide, by decide⟩ (by decide) (.nil : LooseQuestions addressReply 0 12 12 [])
    (.cons hname (by decide) .nil)

theorem labels_right_iff_addressReply :
    (oneServer addressReply).used .a ["a"] = some (addressReply, 0x1234) ∧
      ∀ s out, (resolveDual ((oneServer addressReply).lookup (fun _ => none) 0 "a" true false)).Reachable s →
        s.caller = .returned out → ∀ x ∈ out, Labelled (oneServer addressReply) "a" x := by
  have hused : (oneServer addressReply).used .a ["a"] = some (addressReply, 0x1234) := by decide +kernel
  refine ⟨hused, ?_⟩
  refine (labels_right_iff (oneServer addressReply) (fun _ => none) 0 "a" true false (oneServer_platform _ _)
    fun _ => rfl).mpr ?_
  intro q hq d txn hd rs fs hwalk r hr q' htype _
  cases q with
  | aaaa => cases hq <;> contradiction
  | a =>
    have hcands : candidateNames (oneServer addressReply).conf "a" = ["a"] := rfl
    rw [hcands, hused] at hd
    cases hd
    obtain ⟨rfl, -⟩ := hwalk.unique walk_addressReply
    rw [mem_singleton.mp hr] at htype
    cases q' with
    | a => rfl
    | aaaa => cases htype

def otherFamilyReply : List UInt8 :=
  [0x12, 0x34, 0x81, 0x80, 0, 0, 0, 1, 0, 0, 0, 0, 0, 0, 28, 0, 1, 0, 0, 0, 60, 0, 16, 0x20, 0x01, 0x0D, 0xB8, 0, 0, 0,
    0, 0, 0, 0, 0, 0, 0, 0, 1]

/-- The IPv6 address is returned as an `AF_INET` one. -/
theorem ipv6_labelled_inet :
    ∃ s, (resolveDual ((oneServer otherFamilyReply).lookup (fun _ => none) 0 "a" true false)).Reachable s ∧
      s.caller = .returned [(.inet, "2001:db8::1")] ∧
      ¬Labelled (oneServer otherFamilyReply) "a" (.inet, "2001:db8::1") := by
  have hout : ((oneServer otherFamilyReply).lookup (fun _ => none) 0 "a" true false).outcome .a =
      some ["2001:db8::1"] := by decide +kernel
  refine ⟨_, .step (a := .caller) (.init (init_initial 0)) trivial rfl, ?_, ?_⟩
  · show ((State.initial 0).start _).caller = _
    rw [State.start, if_pos (by decide)]
    simp only [hout]
    rfl
  · rintro ⟨q, packed, hfam, -, htext, -⟩
    cases q with
    | a =>
      have hno := (oneServer_platform otherFamilyReply "a").ntoa packed
      rw [show (oneServer otherFamilyReply).inet.ntoa packed = "2001:db8::1" from htext.symm] at hno
      exact hno (by decide)
    | aaaa => cases hfam

end Runloom.DnsResolve
