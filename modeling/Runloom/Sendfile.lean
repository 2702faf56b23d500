import Mathlib.Algebra.Group.Nat.Defs
import Mathlib.Data.List.Basic
import Mathlib.Order.Basic

/-!
# Cooperative `sendfile`

Model of `_patched_sendfile` in a fiber: `_co_sendfile_use_sendfile`, and `_co_sendfile_use_send` where it gives up.
What the calls to the system answer is a list; a call that answers `moved k` moves `k` bytes, but at least one and no
more than it was asked for and there are.
-/

namespace Runloom.Sendfile

variable {β : Type*}

inductive Answer where
  | moved (k : ℕ)
  | block
  | error

inductive End where
  | returned (n : ℕ)
  | giveup
  | raised
deriving DecidableEq

/-- How a call ends, with the position of the file. -/
structure Result (β : Type*) where
  ending : End
  pos : ℕ
  out : List β
deriving DecidableEq

def amount (k asked present : ℕ) : ℕ :=
  min (max k 1) (min asked present)

/-- The bytes at a position of the file. -/
def bytes (content : List β) (pos n : ℕ) : List β :=
  (content.drop pos).take n

/-- `blocksize` at the top of a round: it is lowered to what is left of `count`. -/
def lower (count : Option ℕ) (total blocksize : ℕ) : ℕ :=
  count.elim blocksize fun c => min (c - total) blocksize

/-- The `finally` of both loops. -/
def seekEnd (ending : End) (total pos target : ℕ) (out : List β) : Result β :=
  ⟨ending, if 0 < total then target else pos, out⟩

/-- The loop of `_co_sendfile_use_sendfile`; `none` if it does not end. -/
def sendfileLoop (content : List β) (count : Option ℕ) (pos : ℕ) :
    List Answer → ℕ → ℕ → ℕ → List β → Option (Result β)
  | answers, offset, blocksize, total, out =>
    if lower count total blocksize = 0 then some (seekEnd (.returned total) total pos offset out)
    else
      match answers with
      | [] => none
      | .block :: answers => sendfileLoop content count pos answers offset (lower count total blocksize) total out
      | .error :: _ =>
        some (seekEnd (if total = 0 then .giveup else .raised) total pos offset out)
      | .moved k :: answers =>
        let sent := amount k (lower count total blocksize) (content.length - offset)
        if sent = 0 then some (seekEnd (.returned total) total pos offset out)
        else
          sendfileLoop content count pos answers (offset + sent) (lower count total blocksize) (total + sent)
            (out ++ bytes content offset sent)

/-- `regular` says that `fileno` and `os.fstat` succeed.  `_check_sendfile_params` refuses the count 0. -/
def useSendfile (content : List β) (regular : Bool) (offset : ℕ) (count : Option ℕ) (pos : ℕ)
    (answers : List Answer) : Option (Result β) :=
  if count = some 0 then some ⟨.raised, pos, []⟩
  else if regular = false then some ⟨.giveup, pos, []⟩
  else if content.length = 0 then some ⟨.returned 0, pos, []⟩
  else sendfileLoop content count pos answers offset (min (count.getD content.length) (2 ^ 30)) 0 []

/-- The loop of `_co_sendfile_use_send`; `data` is what is left of the last read. A blocked `read` has no bytes to
make a `memoryview` of. -/
def sendLoop (content : List β) (offset : ℕ) (count : Option ℕ) :
    List Answer → List β → ℕ → ℕ → ℕ → List β → Option (Result β)
  | answers, [], pos, blocksize, total, out =>
    if lower count total blocksize = 0 then some (seekEnd (.returned total) total pos (offset + total) out)
    else
      match answers with
      | [] => none
      | .block :: _ | .error :: _ => some (seekEnd .raised total pos (offset + total) out)
      | .moved k :: answers =>
        let n := amount k (lower count total blocksize) (content.length - pos)
        if n = 0 then some (seekEnd (.returned total) total pos (offset + total) out)
        else
          sendLoop content offset count answers (bytes content pos n) (pos + n) (lower count total blocksize) total out
  | answers, b :: data, pos, blocksize, total, out =>
    match answers with
    | [] => none
    | .block :: answers => sendLoop content offset count answers (b :: data) pos blocksize total out
    | .error :: _ => some (seekEnd .raised total pos (offset + total) out)
    | .moved k :: answers =>
      let sent := amount k (data.length + 1) (data.length + 1)
      sendLoop content offset count answers ((b :: data).drop sent) pos blocksize (total + sent)
        (out ++ (b :: data).take sent)

def useSend (content : List β) (offset : ℕ) (count : Option ℕ) (pos : ℕ) (answers : List Answer) :
    Option (Result β) :=
  if count = some 0 then some ⟨.raised, pos, []⟩
  else
    sendLoop content offset count answers [] (if offset = 0 then pos else offset) (min (count.getD 8192) 8192) 0 []

/-- `native` says that the platform has `os.sendfile`. -/
def patchedSendfile (content : List β) (native regular : Bool) (offset : ℕ) (count : Option ℕ) (pos : ℕ)
    (answers fallback : List Answer) : Option (Result β) :=
  if native then
    match useSendfile content regular offset count pos answers with
    | some ⟨.giveup, pos, _⟩ => useSend content offset count pos fallback
    | r => r
  else useSend content offset count pos fallback

/-! ## What was sent -/

variable {content out : List β} {offset total blocksize n pos : ℕ} {count : Option ℕ} {r : Result β}

theorem amount_le (k asked present : ℕ) : amount k asked present ≤ asked ∧ amount k asked present ≤ present := by
  unfold amount
  omega

theorem amount_eq_zero {k asked present : ℕ} (h : amount k asked present = 0) : asked = 0 ∨ present = 0 := by
  unfold amount at h
  omega

theorem bytes_append (content : List β) (pos m n : ℕ) :
    bytes content pos m ++ bytes content (pos + m) n = bytes content pos (m + n) := by
  rw [bytes, bytes, bytes, List.take_add, List.drop_drop]

/-- `total` bytes were sent, from `offset` on. -/
structure Progress (content : List β) (offset : ℕ) (count : Option ℕ) (total : ℕ) (out : List β) : Prop where
  out : out = bytes content offset total
  le : offset + total ≤ content.length
  count : ∀ c, count = some c → total ≤ c

/-- How much there is to send. -/
def goal (content : List β) (offset : ℕ) (count : Option ℕ) : ℕ :=
  count.elim (content.length - offset) (min · (content.length - offset))

/-- A call that returns has sent it all. -/
def Complete (content : List β) (offset : ℕ) (count : Option ℕ) (r : Result β) : Prop :=
  ∀ n, r.ending = .returned n →
    n = goal content offset count ∧ r.out = bytes content offset n ∧ (0 < n → r.pos = offset + n)

theorem Progress.start (h : offset ≤ content.length) : Progress content offset count 0 [] :=
  ⟨by simp [bytes], h, fun _ _ => Nat.zero_le _⟩

section

variable (h : Progress content offset count total out)
include h

theorem Progress.count_le (hn : n ≤ lower count total blocksize)
    (c : ℕ) (hc : count = some c) : total + n ≤ c := by
  have := h.count c hc
  subst hc
  simp only [lower, Option.elim_some] at hn
  omega

theorem Progress.more (hle : offset + total + n ≤ content.length) (hn : ∀ c, count = some c → total + n ≤ c) :
    Progress content offset count (total + n) (out ++ bytes content (offset + total) n) :=
  ⟨by rw [h.out, bytes_append], by omega, hn⟩

theorem Progress.complete (hb : 0 < blocksize)
    (hend : lower count total blocksize = 0 ∨ content.length ≤ offset + total) :
    Complete content offset count (seekEnd (.returned total) total pos (offset + total) out) := by
  intro n hn
  cases hn
  refine ⟨?_, h.out, fun hpos => if_pos hpos⟩
  have hle := h.le
  cases count with
  | none =>
    simp only [lower, goal, Option.elim_none] at hend ⊢
    omega
  | some c =>
    have := h.count c rfl
    simp only [lower, goal, Option.elim_some] at hend ⊢
    omega

end

theorem complete_of_ne (h : ∀ n, r.ending ≠ .returned n) : Complete content offset count r :=
  fun n hn => absurd hn (h n)

/-- A loop that gives up has left the file where it was. -/
theorem sendfileLoop_complete (answers : List Answer) (h : Progress content offset count total out)
    (hb : 0 < blocksize)
    (hr : sendfileLoop content count pos answers (offset + total) blocksize total out = some r) :
    Complete content offset count r ∧ (r.ending = .giveup → r.pos = pos) := by
  induction answers generalizing total blocksize out with
  | nil =>
    rw [sendfileLoop] at hr
    split at hr <;> cases hr
    next hl => exact ⟨h.complete hb (.inl hl), nofun⟩
  | cons a answers ih =>
    rw [sendfileLoop.eq_def] at hr
    simp only at hr
    split at hr
    next hl => cases hr; exact ⟨h.complete hb (.inl hl), nofun⟩
    next hl =>
      have hl' : 0 < lower count total blocksize := Nat.pos_of_ne_zero hl
      cases a with
      | block => exact ih h hl' hr
      | error =>
        cases hr
        by_cases h0 : total = 0
        · exact ⟨complete_of_ne (by simp [seekEnd, h0]), fun _ => by simp [seekEnd, h0]⟩
        · exact ⟨complete_of_ne (by simp [seekEnd, h0]), by simp [seekEnd, h0]⟩
      | moved k =>
        obtain ⟨hle, hle'⟩ := amount_le k (lower count total blocksize) (content.length - (offset + total))
        have := h.le
        simp only at hr
        split at hr
        next h0 =>
          cases hr
          exact ⟨h.complete hb (.inr (by have := amount_eq_zero h0; omega)), nofun⟩
        next => exact ih (h.more (by omega) (h.count_le hle)) hl' (by rwa [Nat.add_assoc] at hr)

theorem useSendfile_complete {regular : Bool} {answers : List Answer} (ho : offset ≤ content.length)
    (h : useSendfile content regular offset count pos answers = some r) :
    Complete content offset count r ∧ (r.ending = .giveup → r.pos = pos) := by
  rw [useSendfile] at h
  split_ifs at h with hc hreg hlen
  · cases h
    exact ⟨complete_of_ne nofun, nofun⟩
  · cases h
    exact ⟨complete_of_ne nofun, fun _ => rfl⟩
  · cases h
    refine ⟨?_, nofun⟩
    rintro n ⟨⟩
    refine ⟨?_, by simp [bytes], nofun⟩
    cases count <;> simp [goal, hlen]
  · refine sendfileLoop_complete answers (.start ho) ?_ h
    cases count with
    | none => simp only [Option.getD_none]; omega
    | some c =>
      have : c ≠ 0 := fun h0 => hc (h0 ▸ rfl)
      simp only [Option.getD_some]
      omega

/-- `data` is what was read and not sent. -/
theorem sendLoop_complete (answers : List Answer) (data : List β) (h : Progress content offset count total out)
    (hdata : data = bytes content (offset + total) data.length) (hpos : pos = offset + total + data.length)
    (hle : pos ≤ content.length) (hcount : ∀ c, count = some c → total + data.length ≤ c) (hb : 0 < blocksize)
    (hr : sendLoop content offset count answers data pos blocksize total out = some r) :
    Complete content offset count r := by
  induction answers generalizing data pos total blocksize out with
  | nil =>
    rw [sendLoop.eq_def] at hr
    cases data with
    | nil =>
      simp only at hr
      split at hr <;> cases hr
      next hl => exact h.complete hb (.inl hl)
    | cons b data => cases hr
  | cons a answers ih =>
    rw [sendLoop.eq_def] at hr
    cases data with
    | nil =>
      simp only [List.length_nil, Nat.add_zero] at hr hpos
      subst hpos
      split at hr
      next hl => cases hr; exact h.complete hb (.inl hl)
      next hl =>
        cases a with
        | block | error => cases hr; exact complete_of_ne nofun
        | moved k =>
          obtain ⟨hn, hn'⟩ := amount_le k (lower count total blocksize) (content.length - (offset + total))
          simp only at hr
          split at hr
          next h0 =>
            cases hr
            exact h.complete hb (.inr (by have := amount_eq_zero h0; omega))
          next =>
            have hlen : ∀ n, n ≤ content.length - (offset + total) → (bytes content (offset + total) n).length = n := by
              intro n hn
              rw [bytes, List.length_take, List.length_drop]
              omega
            refine ih _ h ?_ ?_ ?_ ?_ (Nat.pos_of_ne_zero hl) hr
            · rw [hlen _ hn']
            · rw [hlen _ hn']
            · omega
            · rw [hlen _ hn']
              exact h.count_le hn
    | cons b data =>
      cases a with
      | block => exact ih _ h hdata hpos hle hcount hb hr
      | error => cases hr; exact complete_of_ne nofun
      | moved k =>
        simp only [List.length_cons] at hr hpos hcount hdata
        generalize hs : amount k (data.length + 1) (data.length + 1) = sent at hr
        obtain ⟨hsent, -⟩ := amount_le k (data.length + 1) (data.length + 1)
        have htake : (b :: data).take sent = bytes content (offset + total) sent := by
          rw [hdata, bytes, List.take_take, Nat.min_eq_left (by omega), bytes]
        have hdrop : (b :: data).drop sent = bytes content (offset + total + sent) (data.length + 1 - sent) := by
          rw [hdata, bytes, List.drop_take, List.drop_drop, bytes]
        have hlen : ((b :: data).drop sent).length = data.length + 1 - sent := by
          rw [List.length_drop, List.length_cons]
        have hmore := h.more (n := sent) (by omega) fun c hc => by have := hcount c hc; omega
        rw [htake] at hr
        refine ih _ hmore ?_ ?_ hle ?_ hb hr
        · rw [hlen, ← Nat.add_assoc]
          exact hdrop
        · rw [hlen]
          omega
        · intro c hc
          have := hcount c hc
          rw [hlen]
          omega

theorem useSend_complete {answers : List Answer} (ho : offset ≤ content.length) (h0 : offset = 0 → pos = 0)
    (h : useSend content offset count pos answers = some r) : Complete content offset count r := by
  rw [useSend] at h
  split at h
  next =>
    cases h
    exact complete_of_ne nofun
  next hc =>
    have hpos : (if offset = 0 then pos else offset) = offset := by
      split
      next h => rw [h0 h, h]
      next => rfl
    rw [hpos] at h
    refine sendLoop_complete answers [] (.start ho) (by simp [bytes]) rfl ho (fun c _ => Nat.zero_le c) ?_ h
    cases count with
    | none => decide
    | some c =>
      have : c ≠ 0 := fun h0 => hc (h0 ▸ rfl)
      simp only [Option.getD_some]
      omega

/-- Whatever the system answers, a `sendfile` that returns has sent what was asked for, and leaves the file behind
it. -/
theorem sendfile_sends_all {native regular : Bool} {answers fallback : List Answer} (ho : offset ≤ content.length)
    (h0 : offset = 0 → pos = 0)
    (h : patchedSendfile content native regular offset count pos answers fallback = some r) (n : ℕ)
    (hn : r.ending = .returned n) :
    n = count.elim (content.length - offset) (min · (content.length - offset)) ∧
      r.out = (content.drop offset).take n ∧ (0 < n → r.pos = offset + n) := by
  suffices Complete content offset count r from this n hn
  rw [patchedSendfile] at h
  split at h
  · split at h
    next pos' _ hu =>
      obtain rfl : pos' = pos := (useSendfile_complete ho hu).2 rfl
      exact useSend_complete ho h0 h
    next => exact (useSendfile_complete ho h).1
  · exact useSend_complete ho h0 h

/-- The first `os.sendfile` fails, and three sends take the five bytes from offset 2 on. -/
theorem sendfile_sends_all_fallback : patchedSendfile [1, 2, 3, 4, 5, 6, 7] true true 2 none 0 [.block, .error]
        [.moved 9, .moved 2, .block, .moved 2, .moved 2, .moved 1] = some ⟨.returned 5, 7, [3, 4, 5, 6, 7]⟩ ∧
      5 = (none : Option ℕ).elim (7 - 2) (min · (7 - 2)) := by
  have h : patchedSendfile [1, 2, 3, 4, 5, 6, 7] true true 2 none 0 [.block, .error]
      [.moved 9, .moved 2, .block, .moved 2, .moved 2, .moved 1] = some ⟨.returned 5, 7, [3, 4, 5, 6, 7]⟩ := by
    decide +kernel
  have ho : 2 ≤ [1, 2, 3, 4, 5, 6, 7].length := by decide
  exact ⟨h, (sendfile_sends_all ho nofun h 5 rfl).1⟩

end Runloom.Sendfile
