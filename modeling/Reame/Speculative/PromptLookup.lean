import Reame.Speculative.DraftSources

/-!
# Prompt lookup

`PromptLookup::find_draft` looks for the most recent earlier occurrence of the last `n`
tokens, for `n` from `max_ngram` down to `min_ngram`, and proposes what followed it.  An
occurrence may reach into the tail it is compared with, it only must not be the tail itself.

`Occurs` says what is looked for and `LastMatch` which of the occurrences is taken: the
longest pattern first, then the latest start.  `findDraft_spec` is the specification of the
search over lists.

The source compares and copies through pointers into the history.  `findDraftChecked` is the
same search with every read checked.  None of them leaves the history, and the result is that
of the search over lists (`findDraftChecked_eq`).
-/

namespace Reame.Speculative

open Reame.Core

/-! ## What is looked for -/

/-- The last `n` tokens occur at a start before their own. -/
def Occurs (history : List TokenId) (n start : ℕ) : Prop :=
  start + n < history.length ∧
    (history.drop start).take n = history.drop (history.length - n)

/-- The longest pattern that occurs, at the latest start. -/
structure LastMatch (history : List TokenId) (minN maxN n start : ℕ) : Prop where
  long : minN ≤ n
  short : n ≤ maxN
  occurs : Occurs history n start
  longest : ∀ n' start', n < n' → n' ≤ maxN → ¬ Occurs history n' start'
  latest : ∀ start', start < start' → ¬ Occurs history n start'

/-- The interval of pattern lengths that a configuration comes to. -/
def effectiveMax (maxNgram : ℤ) : ℕ := (max maxNgram 1).toNat

def effectiveMin (maxNgram minNgram : ℤ) : ℕ := (min (max minNgram 1) (max maxNgram 1)).toNat

theorem one_le_effectiveMin (maxNgram minNgram : ℤ) : 1 ≤ effectiveMin maxNgram minNgram := by
  unfold effectiveMin
  omega

/-- What is proposed: nothing if nothing is asked for or nothing occurs, and what followed the last
match otherwise. -/
def IsDraft (minN maxN : ℕ) (history : List TokenId) (nDraft : ℤ) (draft : List TokenId) : Prop :=
  (nDraft ≤ 0 ∨ ∀ n start, minN ≤ n → n ≤ maxN → ¬ Occurs history n start) ∧ draft = [] ∨
    0 < nDraft ∧ ∃ n start, LastMatch history minN maxN n start ∧
      draft = (history.drop (start + n)).take (min nDraft.toNat (history.length - start - n)) ∧
      draft ≠ []

/-! ## The search over lists -/

/-- The inner loop finds the latest start below its bound. -/
theorem lastOccurrence_eq_some {history tail : List TokenId} {bound start : ℕ}
    (hfound : lastOccurrence history tail bound = some start) :
    start < bound ∧ (history.drop start).take tail.length = tail ∧
      ∀ later, start < later → later < bound → (history.drop later).take tail.length ≠ tail := by
  induction bound with
  | zero => cases hfound
  | succ bound ih =>
      rw [lastOccurrence] at hfound
      split at hfound
      · rename_i hmatch
        cases hfound
        exact ⟨Nat.lt_succ_self _, hmatch, fun later hlow hhigh => by omega⟩
      · rename_i hother
        obtain ⟨hlt, hmatch, hlatest⟩ := ih hfound
        refine ⟨Nat.lt_succ_of_lt hlt, hmatch, fun later hlow hhigh => ?_⟩
        rcases Nat.lt_succ_iff_lt_or_eq.mp hhigh with hbelow | rfl
        · exact hlatest later hlow hbelow
        · exact hother

theorem lastOccurrence_eq_none {history tail : List TokenId} {bound : ℕ}
    (hnone : lastOccurrence history tail bound = none) {start : ℕ} (hstart : start < bound) :
    (history.drop start).take tail.length ≠ tail := by
  induction bound with
  | zero => omega
  | succ bound ih =>
      rw [lastOccurrence] at hnone
      split at hnone
      · cases hnone
      · rename_i hother
        rcases Nat.lt_succ_iff_lt_or_eq.mp hstart with hbelow | rfl
        · exact ih hnone hbelow
        · exact hother

/-- One round of the outer loop: the latest start of the last `n` tokens. -/
theorem lastOccurrence_tail {history : List TokenId} {n : ℕ} (hlong : n < history.length) :
    match lastOccurrence history (history.drop (history.length - n)) (history.length - n) with
    | some start => Occurs history n start ∧ ∀ later, start < later → ¬ Occurs history n later
    | none => ∀ start, ¬ Occurs history n start := by
  have htail : (history.drop (history.length - n)).length = n := by
    rw [List.length_drop]
    omega
  split
  · rename_i start hfound
    obtain ⟨hlt, hmatch, hlatest⟩ := lastOccurrence_eq_some hfound
    rw [htail] at hmatch hlatest
    exact ⟨⟨by omega, hmatch⟩, fun later hlater hoccurs =>
      hlatest later hlater (by have := hoccurs.1; omega) hoccurs.2⟩
  · rename_i hnone
    intro start hoccurs
    have hbelow : start < history.length - n := by have := hoccurs.1; omega
    have hother := lastOccurrence_eq_none hnone hbelow
    rw [htail] at hother
    exact hother hoccurs.2

/-- The outer loop from a pattern length on, given that no longer one occurs. -/
theorem findDraftFrom_spec {history : List TokenId} {limit minN maxN : ℕ} (hmin : 1 ≤ minN) (n : ℕ)
    (hn : n ≤ maxN) (hlonger : ∀ n' start, n < n' → n' ≤ maxN → ¬ Occurs history n' start) :
    (∃ k start, LastMatch history minN maxN k start ∧
        findDraftFrom history limit minN n = (history.drop (start + k)).take limit) ∨
      (∀ k start, minN ≤ k → k ≤ maxN → ¬ Occurs history k start) ∧
        findDraftFrom history limit minN n = [] := by
  have hended : ∀ {n : ℕ}, n < minN →
      (∀ n' start, n < n' → n' ≤ maxN → ¬ Occurs history n' start) →
      ∀ k start, minN ≤ k → k ≤ maxN → ¬ Occurs history k start :=
    fun hlt hlonger k start hlow hhigh => hlonger k start (by omega) hhigh
  induction n with
  | zero => exact .inr ⟨hended (by omega) hlonger, rfl⟩
  | succ n ih =>
      have hnext : (∀ start, ¬ Occurs history (n + 1) start) →
          ∀ n' start, n < n' → n' ≤ maxN → ¬ Occurs history n' start := by
        intro hnone n' start hlow hhigh
        rcases Nat.lt_or_ge (n + 1) n' with hlarge | hsmall
        · exact hlonger n' start hlarge hhigh
        · obtain rfl : n' = n + 1 := by omega
          exact hnone start
      rw [findDraftFrom]
      split
      · rename_i hshort
        exact .inr ⟨hended hshort hlonger, rfl⟩
      · rename_i hlong
        split
        · -- The history is not longer than the pattern.
          rename_i hhistory
          exact ih (by omega) (hnext fun start hoccurs => by have := hoccurs.1; omega)
        · rename_i hhistory
          have hlonger' : n + 1 < history.length := by omega
          have htail := lastOccurrence_tail hlonger'
          split
          · rename_i start hfound
            rw [hfound] at htail
            exact .inl ⟨n + 1, start, ⟨by omega, hn, htail.1, hlonger, htail.2⟩, rfl⟩
          · rename_i hnone
            rw [hnone] at htail
            exact ih (by omega) (hnext htail)

/-- `find_draft` over lists meets its specification. -/
theorem findDraft_spec (maxNgram minNgram : ℤ) (history : List TokenId) (nDraft : ℤ) :
    IsDraft (effectiveMin maxNgram minNgram) (effectiveMax maxNgram) history nDraft
      (findDraft maxNgram minNgram history nDraft) := by
  have hpos := one_le_effectiveMin maxNgram minNgram
  by_cases hdraft : nDraft ≤ 0
  · exact .inl ⟨.inl hdraft, if_pos hdraft⟩
  have hsearch : findDraft maxNgram minNgram history nDraft =
      findDraftFrom history nDraft.toNat (effectiveMin maxNgram minNgram)
        (effectiveMax maxNgram) := if_neg hdraft
  rw [hsearch]
  have hnone : ∀ n' start, effectiveMax maxNgram < n' → n' ≤ effectiveMax maxNgram →
      ¬ Occurs history n' start := fun n' start hlow hhigh => by omega
  rcases findDraftFrom_spec hpos (effectiveMax maxNgram) le_rfl hnone with
    ⟨n, start, hmatch, heq⟩ | ⟨hnone, heq⟩
  · have hroom := hmatch.occurs.1
    have hlength : (history.drop (start + n)).length = history.length - start - n := by
      rw [List.length_drop]
      omega
    refine .inr ⟨not_le.mp hdraft, n, start, hmatch, ?_, ?_⟩
    · rw [heq, ← hlength, List.take_eq_take_min]
    · rw [heq, ← List.length_pos_iff, List.length_take, hlength]
      omega
  · exact .inl ⟨.inr hnone, heq⟩

/-! ## The search with every read checked -/

/-- A read of the history. -/
def readAt (history : List TokenId) (i : ℕ) : Except Fault TokenId :=
  match history[i]? with
  | some t => .ok t
  | none => .error .outOfBounds

/-- `std::equal` on `n` tokens from two positions of the history. -/
def equalChecked (history : List TokenId) : ℕ → ℕ → ℕ → Except Fault Bool
  | _, _, 0 => .ok true
  | tail, start, n + 1 => do
      let x ← readAt history tail
      let y ← readAt history start
      if x = y then equalChecked history (tail + 1) (start + 1) n else pure false

/-- The inner loop of `find_draft`, from the given start down. -/
def lastOccurrenceChecked (history : List TokenId) (n : ℕ) : ℕ → Except Fault (Option ℕ)
  | 0 => .ok none
  | start + 1 => do
      let equal ← equalChecked history (history.length - n) start n
      if equal then pure (some start) else lastOccurrenceChecked history n start

/-- The copy of the tokens that are returned. -/
def copyChecked (history : List TokenId) : ℕ → ℕ → Except Fault (List TokenId)
  | _, 0 => .ok []
  | cont, take + 1 => do
      let t ← readAt history cont
      let rest ← copyChecked history (cont + 1) take
      pure (t :: rest)

/-- The outer loop of `find_draft`. -/
def findDraftFromChecked (history : List TokenId) (nDraft minN : ℕ) :
    ℕ → Except Fault (List TokenId)
  | 0 => .ok []
  | n + 1 =>
      if n + 1 < minN then .ok []
      else if history.length < n + 1 + 1 then findDraftFromChecked history nDraft minN n
      else do
        let found ← lastOccurrenceChecked history (n + 1) (history.length - (n + 1))
        match found with
        | some start =>
            let cont := start + (n + 1)
            copyChecked history cont (min (history.length - cont) nDraft)
        | none => findDraftFromChecked history nDraft minN n

/-- `PromptLookup::find_draft`, reading the history token by token. -/
def findDraftChecked (maxNgram minNgram : ℤ) (history : List TokenId) (nDraft : ℤ) :
    Except Fault (List TokenId) :=
  if nDraft ≤ 0 then .ok []
  else
    let maxN := max maxNgram 1
    let minN := min (max minNgram 1) maxN
    findDraftFromChecked history nDraft.toNat minN.toNat maxN.toNat

theorem readAt_eq {history : List TokenId} {i : ℕ} (hi : i < history.length) :
    readAt history i = .ok history[i] := by
  rw [readAt, List.getElem?_eq_getElem hi]

theorem equalChecked_eq {history : List TokenId} (n : ℕ) {tail start : ℕ}
    (htail : tail + n ≤ history.length) (hstart : start + n ≤ history.length) :
    equalChecked history tail start n =
      .ok (decide ((history.drop start).take n = (history.drop tail).take n)) := by
  induction n generalizing tail start with
  | zero => simp [equalChecked]
  | succ n ih =>
      have hx : tail < history.length := by omega
      have hy : start < history.length := by omega
      rw [equalChecked, readAt_eq hx, readAt_eq hy, List.drop_eq_getElem_cons hx,
        List.drop_eq_getElem_cons hy, List.take_succ_cons, List.take_succ_cons]
      show (if history[tail] = history[start] then _ else _) = _
      by_cases hsame : history[tail] = history[start]
      · rw [if_pos hsame, ih (by omega) (by omega), hsame]
        simp
      · rw [if_neg hsame]
        simp [Ne.symm hsame, pure, Except.pure]

/-- The inner loop reads the last `n` tokens, and as many from each start below its bound. -/
theorem lastOccurrenceChecked_eq {history : List TokenId} {n : ℕ} (hlong : n < history.length)
    (bound : ℕ) (hbound : bound ≤ history.length - n) :
    lastOccurrenceChecked history n bound =
      .ok (lastOccurrence history (history.drop (history.length - n)) bound) := by
  have htail : (history.drop (history.length - n)).length = n := by
    rw [List.length_drop]
    omega
  induction bound with
  | zero => rfl
  | succ start ih =>
      have hwhole : (history.drop (history.length - n)).take n =
          history.drop (history.length - n) := List.take_of_length_le htail.le
      rw [lastOccurrenceChecked, equalChecked_eq n (by omega) (by omega), hwhole, lastOccurrence,
        htail]
      by_cases hmatch : (history.drop start).take n = history.drop (history.length - n)
      · rw [if_pos hmatch, decide_eq_true hmatch]
        rfl
      · rw [if_neg hmatch, decide_eq_false hmatch, ← ih (by omega)]
        rfl

theorem copyChecked_eq {history : List TokenId} (take : ℕ) {cont : ℕ}
    (hroom : cont + take ≤ history.length) :
    copyChecked history cont take = .ok ((history.drop cont).take take) := by
  induction take generalizing cont with
  | zero => simp [copyChecked]
  | succ take ih =>
      have hcont : cont < history.length := by omega
      rw [copyChecked, readAt_eq hcont, ih (by omega), List.drop_eq_getElem_cons hcont,
        List.take_succ_cons]
      rfl

theorem findDraftFromChecked_eq (history : List TokenId) (nDraft minN n : ℕ) :
    findDraftFromChecked history nDraft minN n = .ok (findDraftFrom history nDraft minN n) := by
  induction n with
  | zero => rfl
  | succ n ih =>
      rw [findDraftFromChecked, findDraftFrom]
      split
      · rfl
      · split
        · exact ih
        · rename_i hshort
          have hlong : n + 1 < history.length := by omega
          rw [lastOccurrenceChecked_eq hlong _ le_rfl]
          cases hfound : lastOccurrence history (history.drop (history.length - (n + 1)))
              (history.length - (n + 1)) with
          | none => exact ih
          | some start =>
              have hlt := (lastOccurrence_eq_some hfound).1
              have hlength : (history.drop (start + (n + 1))).length =
                  history.length - (start + (n + 1)) := List.length_drop
              show copyChecked history (start + (n + 1)) _ = _
              rw [copyChecked_eq _ (by omega), ← hlength, min_comm, ← List.take_eq_take_min]

/-- No read leaves the history, and the search is the one over lists. -/
theorem findDraftChecked_eq (maxNgram minNgram : ℤ) (history : List TokenId) (nDraft : ℤ) :
    findDraftChecked maxNgram minNgram history nDraft =
      .ok (findDraft maxNgram minNgram history nDraft) := by
  rw [findDraftChecked, findDraft]
  split
  · rfl
  · exact findDraftFromChecked_eq ..

/-- `find_draft` meets its specification without a read outside the history. -/
theorem find_draft_meets_spec (maxNgram minNgram : ℤ) (history : List TokenId) (nDraft : ℤ) :
    ∃ draft, findDraftChecked maxNgram minNgram history nDraft = .ok draft ∧
      IsDraft (effectiveMin maxNgram minNgram) (effectiveMax maxNgram) history nDraft draft :=
  ⟨_, findDraftChecked_eq maxNgram minNgram history nDraft, findDraft_spec ..⟩

end Reame.Speculative
