import Reame.Core.Conclave
import Reame.Foundation.Interleaving

/-!
# The deliberation

`generate_best` runs `n` attempts at one prompt and elects one of them.  The attempts share
a tally of final numbers, a flag and a place for the winner; the first number that more
than half of the attempts end with sets the flag, and the callbacks of those that still
generate see it sooner or later, and stop them.

The threads take turns in any order.  A callback reads the flag without synchronization, so
it may miss that it is set, but does not see it set before it is.  What an attempt does
under the lock is one turn.  The loop that runs the attempts one by one takes such turns too
(`over_serially`).

`Counted` is the invariant of all orders:

* as long as the flag is not set no attempt has been cut off, and the tally counts the
  attempts that are in;
* the winner is complete, and more than half of the attempts are complete and end with its
  number.
-/

namespace Reame.Engine

open Reame.Core Reame.Core.Conclave Reame.Majority

/-! ## The attempts -/

/-- Where an attempt is: in `generate_stream`, past it, or past the lock. -/
inductive Phase
  | generating
  | ended
  | deposited
deriving DecidableEq, Repr

/-- An attempt, with the number of pieces that its callback has received. -/
structure Attempt where
  given : ℕ
  phase : Phase
deriving DecidableEq, Repr

/-- The local variables of `generate_best` that the attempts share. -/
structure Deliberation (n : ℕ) where
  attempts : Fin n → Attempt
  outs : Fin n → Bytes
  tally : Bytes → ℕ
  stop : Bool
  winner : Option (Fin n)

/-- One thread takes a turn: its callback receives a piece, and sees the flag set or not;
`generate_stream` returns; or it takes the lock. -/
inductive Turn (n : ℕ)
  | piece (i : Fin n) (seen : Bool)
  | finish (i : Fin n)
  | deposit (i : Fin n)

/-- The attempt whose turn it is. -/
def Turn.attempt {n : ℕ} : Turn n → Fin n
  | .piece i _ | .finish i | .deposit i => i

/-- How the attempts are run: by one thread each, or in a loop. -/
inductive Serving
  | parallel
  | sequential
deriving DecidableEq, Repr

/-- `++tally[num] * 2 > n`, in `int`. -/
def decides (n votes : ℕ) : Bool := (n : ℤ) < toInt32 (votes * 2)

namespace Deliberation

variable {n : ℕ}

/-- Before the attempts. -/
def initial : Deliberation n := ⟨fun _ => ⟨0, .generating⟩, fun _ => [], fun _ => 0, false, none⟩

section Turns

variable (pieces : Fin n → List Bytes)

/-- What an attempt says if nobody stops it. -/
def fullText (i : Fin n) : Bytes := (pieces i).flatten

/-- `out`, when the callback has received some pieces. -/
def textAfter (i : Fin n) (given : ℕ) : Bytes := ((pieces i).take given).flatten

/-- `outs[i] = std::move(out)`. -/
def put (s : Deliberation n) (i : Fin n) : Deliberation n :=
  { s with
    attempts := Function.update s.attempts i { s.attempts i with phase := .deposited }
    outs := Function.update s.outs i (textAfter pieces i (s.attempts i).given) }

/-- A vote, and the verdict if it makes a majority. -/
def vote (s : Deliberation n) (i : Fin n) (num : Bytes) : Deliberation n :=
  let votes := s.tally num + 1
  let s := { s with tally := Function.update s.tally num votes }
  if decides n votes then { s with winner := some i, stop := true } else s

/-- What `run_attempt` does under the lock. -/
def deposit (s : Deliberation n) (i : Fin n) : Deliberation n :=
  let s := s.put pieces i
  if s.stop then s
  else
    let num := finalNumber (s.outs i)
    if num = [] then s else s.vote i num

/-- A turn, if it is the thread's turn to do so. -/
def step (s : Deliberation n) : Turn n → Option (Deliberation n)
  | .piece i seen =>
      if (s.attempts i).phase = .generating ∧ (s.attempts i).given < (pieces i).length ∧
          (seen = true → s.stop = true) then
        some { s with
          attempts := Function.update s.attempts i
            ⟨(s.attempts i).given + 1, if seen then .ended else .generating⟩ }
      else none
  | .finish i =>
      if (s.attempts i).phase = .generating ∧ (s.attempts i).given = (pieces i).length then
        some { s with
          attempts := Function.update s.attempts i { s.attempts i with phase := .ended } }
      else none
  | .deposit i =>
      if (s.attempts i).phase = .ended then some (s.deposit pieces i) else none

/-- In a loop an attempt is run after those before it, and as long as the flag is not set. -/
def Allowed (mode : Serving) (s : Deliberation n) (turn : Turn n) : Prop :=
  mode = .parallel ∨
    (s.stop = false ∧ ∀ j < turn.attempt, (s.attempts j).phase = .deposited)

instance (mode : Serving) (s : Deliberation n) (turn : Turn n) : Decidable (s.Allowed mode turn) :=
  inferInstanceAs (Decidable (_ ∨ _ ∧ _))

/-- After these turns the attempts are over: the threads have been joined, or the loop is left. -/
def Over (mode : Serving) (turns : List (Turn n)) (s : Deliberation n) : Prop :=
  Interleaving.perform (step pieces) (Allowed mode) initial turns = some s ∧
    ((∀ i, (s.attempts i).phase = .deposited) ∨ (mode = .sequential ∧ s.stop = true))

/-- An attempt has run to its end: none of its pieces is missing. -/
def Completed (s : Deliberation n) (i : Fin n) : Prop :=
  (s.attempts i).phase = .deposited ∧ (s.attempts i).given = (pieces i).length

instance (s : Deliberation n) (i : Fin n) : Decidable (s.Completed pieces i) :=
  inferInstanceAs (Decidable (_ ∧ _))

end Turns

/-! ## The election -/

section Election

variable (D : Type*) [Zero D] [One D] [Neg D] [Add D] [Div D] [NatCast D] [LT D] [DecidableLT D]

/-- `elected`. -/
def elected (s : Deliberation n) : ℕ :=
  match s.winner with
  | some w => w
  | none => electNumeric D (List.ofFn s.outs)

/-- `votes_for`. -/
def votesFor (outs : List Bytes) (i : ℕ) : ℕ :=
  let num := finalNumber (outs.getD i [])
  if num = [] then 1 else outs.countP fun out => finalNumber out = num

/-- The end of `generate_best`: the answer, and what `consensus_votes` is set to. -/
def verdict (s : Deliberation n) : Bytes × ℕ :=
  let outs := List.ofFn s.outs
  (outs.getD (s.elected D) [], votesFor outs (s.elected D))

end Election

/-! ## The loop -/

section Loop

variable (pieces : Fin n → List Bytes)

/-- `run_attempt` in the loop, where the flag is not set while it runs. -/
def runAttempt (s : Deliberation n) (i : Fin n) : Deliberation n :=
  deposit pieces { s with attempts := Function.update s.attempts i ⟨(pieces i).length, .ended⟩ } i

/-- `for (int i = 0; i < n && !stop.load(); ++i) run_attempt(i)`. -/
def serially : List (Fin n) → Deliberation n → Deliberation n
  | [], s => s
  | i :: rest, s => if s.stop then s else serially rest (s.runAttempt pieces i)

variable {pieces} {s : Deliberation n}

theorem step_piece {i : Fin n} {given : ℕ} (hi : s.attempts i = ⟨given, .generating⟩)
    (hroom : given < (pieces i).length) :
    s.step pieces (.piece i false) =
      some { s with attempts := Function.update s.attempts i ⟨given + 1, .generating⟩ } := by
  rw [step, if_pos ⟨by rw [hi], by rw [hi]; exact hroom, nofun⟩, hi]
  rfl

theorem step_finish {i : Fin n} (hi : s.attempts i = ⟨(pieces i).length, .generating⟩) :
    s.step pieces (.finish i) =
      some { s with attempts := Function.update s.attempts i ⟨(pieces i).length, .ended⟩ } := by
  rw [step, if_pos ⟨by rw [hi], by rw [hi]⟩, hi]

section Attempt

variable {i : Fin n} (hstop : s.stop = false)
  (hearlier : ∀ j < i, (s.attempts j).phase = .deposited)
include hstop hearlier

/-- Wherever the attempt is, it may take a turn. -/
theorem allowed_sequential (a : Attempt) {turn : Turn n} (hturn : turn.attempt = i) :
    Allowed .sequential { s with attempts := Function.update s.attempts i a } turn := by
  refine .inr ⟨hstop, fun j hj => ?_⟩
  rw [hturn] at hj
  show (Function.update s.attempts i a j).phase = _
  rw [Function.update_of_ne hj.ne]
  exact hearlier j hj

variable (pieces) in
/-- Its callback receives some more pieces. -/
theorem perform_pieces (k given : ℕ) (hgiven : given + k ≤ (pieces i).length) :
    Interleaving.perform (step pieces) (Allowed .sequential)
      { s with attempts := Function.update s.attempts i ⟨given, .generating⟩ }
      (List.replicate k (.piece i false)) =
        some { s with attempts := Function.update s.attempts i ⟨given + k, .generating⟩ } := by
  induction k generalizing given with
  | zero => rfl
  | succ k ih =>
      have hstep : step pieces
          { s with attempts := Function.update s.attempts i ⟨given, .generating⟩ }
          (.piece i false) =
            some { s with attempts := Function.update s.attempts i ⟨given + 1, .generating⟩ } := by
        rw [step_piece (Function.update_self ..) (by omega), Function.update_idem]
      calc Interleaving.perform (step pieces) (Allowed .sequential)
            { s with attempts := Function.update s.attempts i ⟨given, .generating⟩ }
            (List.replicate (k + 1) (.piece i false))
          = Interleaving.perform (step pieces) (Allowed .sequential)
              { s with attempts := Function.update s.attempts i ⟨given + 1, .generating⟩ }
              (List.replicate k (.piece i false)) := by
            rw [List.replicate_succ, Interleaving.perform,
              if_pos (allowed_sequential hstop hearlier _ rfl), hstep, Option.bind_some]
        _ = some { s with
              attempts := Function.update s.attempts i ⟨given + 1 + k, .generating⟩ } :=
            ih (given + 1) (by omega)
        _ = some { s with
              attempts := Function.update s.attempts i ⟨given + (k + 1), .generating⟩ } := by
            rw [Nat.add_right_comm, Nat.add_assoc]

variable (pieces) in
/-- `run_attempt` in the loop is a sequence of turns. -/
theorem perform_runAttempt (hfresh : s.attempts i = ⟨0, .generating⟩) :
    ∃ turns, Interleaving.perform (step pieces) (Allowed .sequential) s turns =
      some (s.runAttempt pieces i) := by
  refine ⟨List.replicate (pieces i).length (.piece i false) ++ [.finish i, .deposit i], ?_⟩
  have hpieces := perform_pieces pieces hstop hearlier (pieces i).length 0 (by omega)
  rw [← hfresh, Function.update_eq_self, Nat.zero_add] at hpieces
  rw [Interleaving.perform_append hpieces]
  have hfinish : step pieces
      { s with attempts := Function.update s.attempts i ⟨(pieces i).length, .generating⟩ }
      (.finish i) =
        some { s with attempts := Function.update s.attempts i ⟨(pieces i).length, .ended⟩ } := by
    rw [step_finish (Function.update_self ..), Function.update_idem]
  have hdeposit : step pieces
      { s with attempts := Function.update s.attempts i ⟨(pieces i).length, .ended⟩ }
      (.deposit i) = some (s.runAttempt pieces i) :=
    if_pos (congrArg Attempt.phase (Function.update_self i _ s.attempts))
  rw [Interleaving.perform, if_pos (allowed_sequential hstop hearlier _ rfl), hfinish,
    Option.bind_some, Interleaving.perform,
    if_pos (allowed_sequential hstop hearlier _ rfl), hdeposit]
  rfl

end Attempt

theorem attempts_deposit (s : Deliberation n) (i : Fin n) :
    (s.deposit pieces i).attempts = (s.put pieces i).attempts := by
  unfold deposit vote
  dsimp only
  split
  · rfl
  · split
    · rfl
    · split <;> rfl

theorem attempts_runAttempt (s : Deliberation n) (i : Fin n) :
    (s.runAttempt pieces i).attempts =
      Function.update s.attempts i ⟨(pieces i).length, .deposited⟩ := by
  rw [runAttempt, attempts_deposit]
  unfold put
  dsimp only
  rw [Function.update_self, Function.update_idem]

/-- The loop, from where the attempts before a place in it are in and the others have not begun. -/
theorem exists_turns_serially :
    ∀ (rest : List (Fin n)) (s : Deliberation n) (turns : List (Turn n)),
      Interleaving.perform (step pieces) (Allowed .sequential) initial turns = some s →
      rest.Pairwise (· < ·) → (∀ j ∈ rest, s.attempts j = ⟨0, .generating⟩) →
      (∀ j, j ∉ rest → (s.attempts j).phase = .deposited) →
      ∃ turns, Over pieces .sequential turns (serially pieces rest s) := by
  intro rest
  induction rest with
  | nil => exact fun s turns hturns _ _ hin => ⟨turns, hturns, .inl fun i => hin i (by simp)⟩
  | cons i rest ih =>
      intro s turns hturns hsorted hfresh hin
      rw [serially]
      split
      · rename_i hstop
        exact ⟨turns, hturns, .inr ⟨rfl, hstop⟩⟩
      · rename_i hstop
        obtain ⟨hfirst, hsorted⟩ := List.pairwise_cons.mp hsorted
        have hearlier : ∀ j < i, (s.attempts j).phase = .deposited := by
          intro j hj
          refine hin j fun hmem => ?_
          rcases List.mem_cons.mp hmem with rfl | hmem
          · exact lt_irrefl j hj
          · exact lt_asymm hj (hfirst j hmem)
        obtain ⟨more, hmore⟩ := perform_runAttempt pieces (Bool.not_eq_true _ ▸ hstop)
          hearlier (hfresh i (List.mem_cons_self ..))
        refine ih (s.runAttempt pieces i) (turns ++ more) ?_ hsorted (fun j hj => ?_)
          fun j hj => ?_
        · rw [Interleaving.perform_append hturns]
          exact hmore
        · rw [attempts_runAttempt, Function.update_of_ne (hfirst j hj).ne']
          exact hfresh j (List.mem_cons_of_mem _ hj)
        · rw [attempts_runAttempt]
          by_cases hji : j = i
          · rw [hji, Function.update_self]
          · rw [Function.update_of_ne hji]
            exact hin j fun hmem => (List.mem_cons.mp hmem).elim hji hj

/-- What the loop of the source leaves is what some turns in sequential mode lead to. -/
theorem over_serially :
    ∃ turns, Over pieces .sequential turns (serially pieces (List.finRange n) initial) :=
  exists_turns_serially (List.finRange n) initial [] rfl (List.pairwise_lt_finRange n)
    (fun _ _ => rfl) fun j hj => absurd (List.mem_finRange j) hj

end Loop

/-! ## What holds in every order -/

section Counted

variable (pieces : Fin n → List Bytes)

/-- The attempts that are complete and end with a number. -/
def backers (s : Deliberation n) (v : Bytes) : Finset (Fin n) :=
  Finset.univ.filter fun i => s.Completed pieces i ∧ finalNumber (fullText pieces i) = v

/-- The invariant of the deliberation. -/
structure Counted (s : Deliberation n) : Prop where
  whole : s.stop = false → ∀ i, (s.attempts i).phase ≠ .generating →
    (s.attempts i).given = (pieces i).length
  outs : ∀ i, s.outs i =
    if (s.attempts i).phase = .deposited then textAfter pieces i (s.attempts i).given else []
  tally : s.stop = false → ∀ v, v ≠ [] → s.tally v = (s.backers pieces v).card
  stop : s.stop = s.winner.isSome
  winner : ∀ w, s.winner = some w → s.Completed pieces w ∧ finalNumber (fullText pieces w) ≠ [] ∧
    n < 2 * (s.backers pieces (finalNumber (fullText pieces w))).card

variable {pieces} {s s' : Deliberation n}

theorem textAfter_length {i : Fin n} {given : ℕ} (hgiven : given = (pieces i).length) :
    textAfter pieces i given = fullText pieces i := by
  rw [textAfter, hgiven, List.take_length, fullText]

/-- With more attempts complete a number has more backers. -/
theorem backers_mono (hcompleted : ∀ i, s.Completed pieces i → s'.Completed pieces i) (v : Bytes) :
    s.backers pieces v ⊆ s'.backers pieces v := by
  intro i hi
  obtain ⟨hi, hv⟩ := (Finset.mem_filter.mp hi).2
  exact Finset.mem_filter.mpr ⟨Finset.mem_univ i, hcompleted i hi, hv⟩

theorem backers_congr (hcompleted : ∀ i, s.Completed pieces i ↔ s'.Completed pieces i) (v : Bytes) :
    s.backers pieces v = s'.backers pieces v :=
  (backers_mono (fun i => (hcompleted i).mp) v).antisymm
    (backers_mono (fun i => (hcompleted i).mpr) v)

theorem counted_initial : Counted pieces (initial : Deliberation n) where
  whole := fun _ i hphase => absurd rfl hphase
  outs := fun _ => rfl
  tally := by
    intro _ v _
    have hnone : backers pieces (initial : Deliberation n) v = ∅ :=
      Finset.filter_eq_empty_iff.mpr fun i _ hi => nomatch hi.1.1
    rw [hnone]
    rfl
  stop := rfl
  winner := nofun

/-- A turn before the lock: the attempt is not among those that are in. -/
theorem Counted.generates (hs : Counted pieces s) {i : Fin n} {a : Attempt}
    (hbefore : (s.attempts i).phase ≠ .deposited) (hafter : a.phase ≠ .deposited)
    (hwhole : s.stop = false → a.phase ≠ .generating → a.given = (pieces i).length) :
    Counted pieces { s with attempts := Function.update s.attempts i a } := by
  let s' : Deliberation n := { s with attempts := Function.update s.attempts i a }
  have hother : ∀ j, j ≠ i → s'.attempts j = s.attempts j :=
    fun j hj => Function.update_of_ne hj a s.attempts
  have hself : s'.attempts i = a := Function.update_self i a s.attempts
  have hcompleted : ∀ j, s.Completed pieces j ↔ s'.Completed pieces j := by
    intro j
    by_cases hj : j = i
    · subst hj
      refine iff_of_false (fun hdone => hbefore hdone.1) fun hdone => hafter ?_
      rw [← hself]
      exact hdone.1
    · unfold Completed
      rw [hother j hj]
  refine ⟨fun hstop j hphase => ?_, fun j => ?_, fun hstop v hv => ?_, hs.stop, fun w hw => ?_⟩
  · by_cases hj : j = i
    · subst hj
      change (s'.attempts j).phase ≠ _ at hphase
      show (s'.attempts j).given = _
      rw [hself] at hphase ⊢
      exact hwhole hstop hphase
    · change (s'.attempts j).phase ≠ _ at hphase
      show (s'.attempts j).given = _
      rw [hother j hj] at hphase ⊢
      exact hs.whole hstop j hphase
  · show s.outs j = if (s'.attempts j).phase = _ then textAfter pieces j (s'.attempts j).given else []
    by_cases hj : j = i
    · subst hj
      rw [hself, if_neg hafter, hs.outs, if_neg hbefore]
    · rw [hother j hj]
      exact hs.outs j
  · show s.tally v = (s'.backers pieces v).card
    rw [← backers_congr hcompleted]
    exact hs.tally hstop v hv
  · obtain ⟨hdone, hne, hmajority⟩ := hs.winner w hw
    refine ⟨(hcompleted w).mp hdone, hne, ?_⟩
    show n < 2 * (s'.backers pieces _).card
    rw [← backers_congr hcompleted]
    exact hmajority

/-- Twice the votes only exceed `n` if they do without the bound of the type. -/
theorem lt_of_decides {votes : ℕ} (hdecides : decides n votes = true) : n < 2 * votes := by
  have hlt : (n : ℤ) < ((votes : ℤ) * 2).bmod (2 ^ 32) := of_decide_eq_true hdecides
  rw [Int.bmod_def] at hlt
  split at hlt <;> omega

section Put

variable (s) (i : Fin n)

@[simp] theorem stop_put : (s.put pieces i).stop = s.stop := rfl

theorem attempts_put_self :
    (s.put pieces i).attempts i = { s.attempts i with phase := .deposited } :=
  Function.update_self ..

theorem attempts_put_ne {j : Fin n} (hj : j ≠ i) :
    (s.put pieces i).attempts j = s.attempts j := Function.update_of_ne hj ..

/-- The attempts that are complete are those before, and this one if it was not cut off. -/
theorem completed_put (hended : (s.attempts i).phase = .ended) (j : Fin n) :
    (s.put pieces i).Completed pieces j ↔
      s.Completed pieces j ∨ (j = i ∧ (s.attempts i).given = (pieces i).length) := by
  unfold Completed
  by_cases hj : j = i
  · subst hj
    rw [attempts_put_self, hended]
    simp
  · rw [attempts_put_ne s i hj]
    exact ⟨.inl, fun hdone => hdone.resolve_right fun h => hj h.1⟩

theorem outs_put (houts : ∀ j, s.outs j =
      if (s.attempts j).phase = .deposited then textAfter pieces j (s.attempts j).given else [])
    (j : Fin n) : (s.put pieces i).outs j =
      if ((s.put pieces i).attempts j).phase = .deposited then
        textAfter pieces j ((s.put pieces i).attempts j).given
      else [] := by
  by_cases hj : j = i
  · subst hj
    rw [attempts_put_self, if_pos rfl]
    exact Function.update_self ..
  · rw [attempts_put_ne s i hj, ← houts j]
    exact Function.update_of_ne hj ..

/-- A complete attempt adds itself to the backers of its own number, and to no others. -/
theorem card_backers_put (hended : (s.attempts i).phase = .ended)
    (hgiven : (s.attempts i).given = (pieces i).length) (v : Bytes) :
    ((s.put pieces i).backers pieces v).card =
      (s.backers pieces v).card + if finalNumber (fullText pieces i) = v then 1 else 0 := by
  split
  · rename_i hnumber
    have hinsert : (s.put pieces i).backers pieces v = insert i (s.backers pieces v) := by
      ext j
      rw [Finset.mem_insert, backers, backers, Finset.mem_filter, Finset.mem_filter,
        completed_put s i hended j]
      constructor
      · rintro ⟨-, hdone | ⟨rfl, -⟩, hnumber⟩
        · exact .inr ⟨Finset.mem_univ j, hdone, hnumber⟩
        · exact .inl rfl
      · rintro (rfl | ⟨-, hdone, hnumber⟩)
        · exact ⟨Finset.mem_univ j, .inr ⟨rfl, hgiven⟩, hnumber⟩
        · exact ⟨Finset.mem_univ j, .inl hdone, hnumber⟩
    have hnew : i ∉ s.backers pieces v := by
      intro hi
      have hdone := (Finset.mem_filter.mp hi).2.1
      rw [Completed, hended] at hdone
      exact nomatch hdone.1
    rw [hinsert, Finset.card_insert_of_notMem hnew]
  · rename_i hnumber
    refine congrArg Finset.card (Finset.Subset.antisymm (fun j hj => ?_)
      (backers_mono (fun j hj => (completed_put s i hended j).mpr (.inl hj)) v))
    obtain ⟨hdone, hnumber'⟩ := (Finset.mem_filter.mp hj).2
    rcases (completed_put s i hended j).mp hdone with hdone | ⟨rfl, -⟩
    · exact Finset.mem_filter.mpr ⟨Finset.mem_univ j, hdone, hnumber'⟩
    · exact absurd hnumber' hnumber

end Put

/-- An attempt takes the lock. -/
theorem Counted.deposit (hs : Counted pieces s) {i : Fin n}
    (hended : (s.attempts i).phase = .ended) : Counted pieces (s.deposit pieces i) := by
  have hwinner : ∀ w, s.winner = some w → (s.put pieces i).Completed pieces w ∧
      finalNumber (fullText pieces w) ≠ [] ∧
        n < 2 * ((s.put pieces i).backers pieces (finalNumber (fullText pieces w))).card := by
    intro w hw
    obtain ⟨hdone, hne, hmajority⟩ := hs.winner w hw
    have hcompleted : ∀ j, s.Completed pieces j → (s.put pieces i).Completed pieces j :=
      fun j hj => (completed_put s i hended j).mpr (.inl hj)
    have hmore := Finset.card_le_card (backers_mono hcompleted (finalNumber (fullText pieces w)))
    exact ⟨(completed_put s i hended w).mpr (.inl hdone), hne, by omega⟩
  have houts := outs_put s i hs.outs
  unfold Deliberation.deposit
  dsimp only
  by_cases hstop : s.stop = true
  · -- The verdict has been given.
    have hstop' : (s.put pieces i).stop ≠ false := by
      rw [stop_put, hstop]
      decide
    rw [stop_put, if_pos hstop]
    exact ⟨fun h => absurd h hstop', houts, fun h => absurd h hstop', hs.stop, hwinner⟩
  · rw [stop_put, if_neg hstop]
    rw [Bool.not_eq_true] at hstop
    -- The flag is not set, so the attempt is complete.
    have hgiven : (s.attempts i).given = (pieces i).length :=
      hs.whole hstop i (by rw [hended]; decide)
    have hfull : (s.put pieces i).outs i = fullText pieces i :=
      (Function.update_self ..).trans (textAfter_length hgiven)
    have hwhole : ∀ j, ((s.put pieces i).attempts j).phase ≠ .generating →
        ((s.put pieces i).attempts j).given = (pieces j).length := by
      intro j hphase
      by_cases hj : j = i
      · subst hj
        rw [attempts_put_self]
        exact hgiven
      · rw [attempts_put_ne s i hj] at hphase ⊢
        exact hs.whole hstop j hphase
    rw [hfull]
    by_cases hnum : finalNumber (fullText pieces i) = []
    · rw [if_pos hnum]
      refine ⟨fun _ => hwhole, houts, fun _ v hv => ?_, hs.stop, hwinner⟩
      rw [card_backers_put s i hended hgiven, 
        if_neg fun h : finalNumber (fullText pieces i) = v => hv (h ▸ hnum)]
      exact hs.tally hstop v hv
    · rw [if_neg hnum]
      have hvotes : s.tally (finalNumber (fullText pieces i)) + 1 =
          ((s.put pieces i).backers pieces (finalNumber (fullText pieces i))).card := by
        rw [card_backers_put s i hended hgiven, if_pos rfl, hs.tally hstop _ hnum]
      unfold vote
      dsimp only
      split
      · rename_i hdecides
        refine ⟨nofun, houts, nofun, rfl, fun w hw => ?_⟩
        obtain rfl := Option.some.inj hw
        have hmajority : n < 2 * ((s.put pieces i).backers pieces
            (finalNumber (fullText pieces i))).card := hvotes ▸ lt_of_decides hdecides
        exact ⟨(completed_put s i hended i).mpr (.inr ⟨rfl, hgiven⟩), hnum, hmajority⟩
      · refine ⟨fun _ => hwhole, houts, fun _ v hv => ?_, hs.stop, hwinner⟩
        show Function.update s.tally _ _ v = ((s.put pieces i).backers pieces v).card
        by_cases hsame : v = finalNumber (fullText pieces i)
        · rw [hsame, Function.update_self]
          exact hvotes
        · rw [Function.update_of_ne hsame, card_backers_put s i hended hgiven,
            if_neg (Ne.symm hsame)]
          exact hs.tally hstop v hv

/-- Every turn keeps the invariant. -/
theorem Counted.step {turn : Turn n} (hs : Counted pieces s)
    (hstep : s.step pieces turn = some s') : Counted pieces s' := by
  unfold Deliberation.step at hstep
  cases turn with
  | piece i seen =>
      obtain ⟨⟨hphase, -, hseen⟩, hafter⟩ := Option.ite_none_right_eq_some.mp hstep
      cases hafter
      refine hs.generates (by rw [hphase]; decide) ?_ fun hstop hended => ?_
      · cases seen <;> exact nofun
      · -- As long as the flag is not set, nobody sees it set.
        cases seen with
        | true =>
            rw [hseen rfl] at hstop
            cases hstop
        | false => exact absurd rfl hended
  | finish i =>
      obtain ⟨⟨hphase, hgiven⟩, hafter⟩ := Option.ite_none_right_eq_some.mp hstep
      cases hafter
      exact hs.generates (by rw [hphase]; decide) nofun fun _ _ => hgiven
  | deposit i =>
      obtain ⟨hphase, hafter⟩ := Option.ite_none_right_eq_some.mp hstep
      cases hafter
      exact hs.deposit hphase

theorem counted_perform {mode : Serving} {turns : List (Turn n)} (hs : Counted pieces s)
    (hperform : Interleaving.perform (Deliberation.step pieces) (Allowed mode) s turns = some s') :
    Counted pieces s' :=
  ((Interleaving.Reaches.start).perform hperform).invariant (Counted pieces) hs
    fun _ _ _ hs _ hstep => hs.step hstep

/-- In the end there is a winner, or all attempts are complete. -/
theorem Over.winner_or_completed {mode : Serving} {turns : List (Turn n)}
    (hover : Over pieces mode turns s) :
    (∃ w, s.winner = some w) ∨ (s.winner = none ∧ ∀ i, s.Completed pieces i) := by
  have hs := counted_perform counted_initial hover.1
  cases hwinner : s.winner with
  | some w => exact .inl ⟨w, rfl⟩
  | none =>
      have hstop : s.stop = false := by rw [hs.stop, hwinner]; rfl
      have hall : ∀ i, (s.attempts i).phase = .deposited :=
        hover.2.resolve_right fun hleft => by rw [hstop] at hleft; exact nomatch hleft.2
      exact .inr ⟨rfl, fun i => ⟨hall i, hs.whole hstop i (by rw [hall i]; decide)⟩⟩

/-- A complete attempt has left its full text. -/
theorem Counted.outs_completed (hs : Counted pieces s) {i : Fin n} (hi : s.Completed pieces i) :
    s.outs i = fullText pieces i := by
  rw [hs.outs, if_pos hi.1, textAfter_length hi.2]

/-- The winner has the majority of the full texts behind it. -/
theorem Counted.hasMajority (hs : Counted pieces s) {w : Fin n} (hw : s.winner = some w) :
    HasMajority (fun i => finalNumber (fullText pieces i)) (finalNumber (fullText pieces w)) := by
  obtain ⟨-, -, hmajority⟩ := hs.winner w hw
  have hvotes : (s.backers pieces (finalNumber (fullText pieces w))).card ≤
      votes (fun i => finalNumber (fullText pieces i)) (finalNumber (fullText pieces w)) := by
    refine Finset.card_le_card fun i hi => ?_
    exact Finset.mem_filter.mpr ⟨Finset.mem_univ i, (Finset.mem_filter.mp hi).2.2⟩
  unfold HasMajority
  rw [Fintype.card_fin]
  omega

end Counted

end Deliberation

end Reame.Engine
