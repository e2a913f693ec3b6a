import Reame.Core.Serving
import Reame.Engine.Deliberation

/-!
# Early consensus

The verdict of `generate_best` in every order of turns (`Counted`):

* the flag only tells who wins, and the full election would find the same number; a text
  that was cut off is nothing to it (`early_consensus_agrees`);
* such a text is still put among the candidates, and `votes_for` counts it if it happens to
  end with the number of the winner (`consensus_votes_iff`).

For the second part of the first claim the attempts are exchanged for others that differ
only in what nobody has heard or voted on: the two deliberations go side by side (`Agrees`).

In the scheduler an attempt that is stopped has said a beginning of its text
(`advance_heard`), which is what a turn takes it for.
-/

namespace Reame.Engine

open Reame.Core Reame.Core.Conclave Reame.Majority

namespace Deliberation

variable {n : ℕ}

/-! ## What was cut off does not matter -/

section Indifferent

variable {pieces pieces' : Fin n → List Bytes} {s s' : Deliberation n}

/-- Other attempts, that differ only in what follows where an attempt is, or in what it has said
if something follows. -/
def SameSoFar (pieces pieces' : Fin n → List Bytes) (s : Deliberation n) : Prop :=
  ∀ i, pieces' i = pieces i ∨
    ((s.attempts i).given < (pieces i).length ∧ (s.attempts i).given < (pieces' i).length)

/-- Two deliberations that differ only in the texts of attempts that differ. -/
structure Agrees (pieces pieces' : Fin n → List Bytes) (s s' : Deliberation n) : Prop where
  attempts : s'.attempts = s.attempts
  tally : s'.tally = s.tally
  stop : s'.stop = s.stop
  winner : s'.winner = s.winner
  outs : ∀ i, pieces' i = pieces i → s'.outs i = s.outs i

/-- No attempt loses a piece. -/
theorem given_step {turn : Turn n} (hstep : s.step pieces turn = some s') (j : Fin n) :
    (s.attempts j).given ≤ (s'.attempts j).given := by
  have hupdate : ∀ (i : Fin n) (a : Attempt), (s.attempts i).given ≤ a.given →
      (s.attempts j).given ≤ (Function.update s.attempts i a j).given := by
    intro i a ha
    by_cases hj : j = i
    · subst hj
      rw [Function.update_self]
      exact ha
    · rw [Function.update_of_ne hj]
  unfold step at hstep
  cases turn with
  | piece i seen =>
      obtain ⟨-, hafter⟩ := Option.ite_none_right_eq_some.mp hstep
      cases hafter
      exact hupdate i _ (Nat.le_succ _)
  | finish i =>
      obtain ⟨-, hafter⟩ := Option.ite_none_right_eq_some.mp hstep
      cases hafter
      exact hupdate i _ le_rfl
  | deposit i =>
      obtain ⟨-, hafter⟩ := Option.ite_none_right_eq_some.mp hstep
      cases hafter
      rw [attempts_deposit]
      exact hupdate i _ le_rfl

theorem given_perform {mode : Serving} {turns : List (Turn n)}
    (hperform : Interleaving.perform (step pieces) (Allowed mode) s turns = some s') (j : Fin n) :
    (s.attempts j).given ≤ (s'.attempts j).given :=
  ((Interleaving.Reaches.start).perform hperform).invariant
    (fun s' => (s.attempts j).given ≤ (s'.attempts j).given) le_rfl
    fun _ _ _ hs _ hstep => hs.trans (given_step hstep j)

theorem SameSoFar.earlier (hsame : SameSoFar pieces pieces' s')
    (hgiven : ∀ i, (s.attempts i).given ≤ (s'.attempts i).given) :
    SameSoFar pieces pieces' s :=
  fun i => (hsame i).imp_right fun ⟨hlt, hlt'⟩ =>
    ⟨(hgiven i).trans_lt hlt, (hgiven i).trans_lt hlt'⟩

/-- An attempt that has all its pieces is the same. -/
theorem SameSoFar.eq_of_length (hsame : SameSoFar pieces pieces' s) {i : Fin n}
    (hgiven : (s.attempts i).given = (pieces i).length) : pieces' i = pieces i :=
  (hsame i).resolve_right fun hshort => absurd hshort.1 (by omega)

theorem Agrees.put (hagrees : Agrees pieces pieces' s s') (i : Fin n) :
    Agrees pieces pieces' (s.put pieces i) (s'.put pieces' i) := by
  refine ⟨?_, hagrees.tally, hagrees.stop, hagrees.winner, fun j hj => ?_⟩
  · show Function.update s'.attempts i _ = Function.update s.attempts i _
    rw [hagrees.attempts]
  · show Function.update s'.outs i _ j = Function.update s.outs i _ j
    by_cases hji : j = i
    · subst hji
      rw [Function.update_self, Function.update_self, hagrees.attempts, textAfter, textAfter, hj]
    · rw [Function.update_of_ne hji, Function.update_of_ne hji]
      exact hagrees.outs j hj

theorem Agrees.vote (hagrees : Agrees pieces pieces' s s') (i : Fin n) (num : Bytes) :
    Agrees pieces pieces' (s.vote i num) (s'.vote i num) := by
  unfold Deliberation.vote
  dsimp only
  rw [hagrees.tally]
  split
  · exact ⟨hagrees.attempts, rfl, rfl, rfl, hagrees.outs⟩
  · exact ⟨hagrees.attempts, rfl, hagrees.stop, hagrees.winner, hagrees.outs⟩

/-- One turn: what the other attempts are like does not show. -/
theorem Agrees.step {s₁ : Deliberation n} {turn : Turn n} (hagrees : Agrees pieces pieces' s s')
    (hs : Counted pieces s) (hstep : s.step pieces turn = some s₁)
    (hsame : SameSoFar pieces pieces' s₁) :
    ∃ s₁', s'.step pieces' turn = some s₁' ∧ Agrees pieces pieces' s₁ s₁' := by
  have hbefore := hsame.earlier (given_step hstep)
  unfold Deliberation.step at hstep ⊢
  rw [hagrees.attempts, hagrees.stop]
  cases turn with
  | piece i seen =>
      obtain ⟨⟨hphase, hroom, hseen⟩, hafter⟩ := Option.ite_none_right_eq_some.mp hstep
      cases hafter
      have hroom' : (s.attempts i).given < (pieces' i).length := by
        rcases hbefore i with heq | ⟨-, hlt⟩
        · rw [heq]
          exact hroom
        · exact hlt
      refine ⟨_, if_pos ⟨hphase, hroom', hseen⟩, ⟨rfl, hagrees.tally, rfl, hagrees.winner,
        hagrees.outs⟩⟩
  | finish i =>
      obtain ⟨⟨hphase, hgiven⟩, hafter⟩ := Option.ite_none_right_eq_some.mp hstep
      cases hafter
      have hgiven' : (s.attempts i).given = (pieces' i).length := by
        rw [hbefore.eq_of_length hgiven]
        exact hgiven
      exact ⟨_, if_pos ⟨hphase, hgiven'⟩, ⟨rfl, hagrees.tally, rfl, hagrees.winner, hagrees.outs⟩⟩
  | deposit i =>
      obtain ⟨hphase, hafter⟩ := Option.ite_none_right_eq_some.mp hstep
      cases hafter
      refine ⟨_, if_pos hphase, ?_⟩
      have hput := hagrees.put i
      unfold Deliberation.deposit
      dsimp only
      rw [hput.stop]
      by_cases hstop : s.stop = true
      · rw [stop_put, if_pos hstop, if_pos hstop]
        exact hput
      · rw [stop_put, if_neg hstop, if_neg hstop]
        -- The attempt votes, so it is complete, and the same.
        have hgiven := hs.whole (Bool.not_eq_true _ ▸ hstop) i (by rw [hphase]; decide)
        rw [hput.outs i (hbefore.eq_of_length hgiven)]
        split
        · exact hput
        · exact hput.vote i _

/-- The same turns with other attempts. -/
theorem Agrees.perform {mode : Serving} {turns : List (Turn n)} {last : Deliberation n}
    (hsame : SameSoFar pieces pieces' last) :
    ∀ {s s' : Deliberation n}, Agrees pieces pieces' s s' → Counted pieces s →
      Interleaving.perform (Deliberation.step pieces) (Allowed mode) s turns = some last →
      ∃ last', Interleaving.perform (Deliberation.step pieces') (Allowed mode) s' turns =
        some last' ∧ Agrees pieces pieces' last last' := by
  induction turns with
  | nil =>
      intro s s' hagrees _ hperform
      cases hperform
      exact ⟨s', rfl, hagrees⟩
  | cons turn rest ih =>
      intro s s' hagrees hs hperform
      rw [Interleaving.perform] at hperform ⊢
      split at hperform
      · rename_i hallowed
        obtain ⟨s₁, hstep, hrest⟩ := Option.bind_eq_some_iff.mp hperform
        obtain ⟨s₁', hstep', hagrees'⟩ := hagrees.step hs hstep
          (hsame.earlier (given_perform hrest))
        have hallowed' : s'.Allowed mode turn := by
          unfold Allowed at hallowed ⊢
          rw [hagrees.stop, hagrees.attempts]
          exact hallowed
        rw [if_pos hallowed', hstep']
        exact ih hagrees' (hs.step hstep) hrest
      · cases hperform

end Indifferent

/-! ## The verdict -/

section Verdict

variable (D : Type*) [Zero D] [One D] [Neg D] [Add D] [Div D] [NatCast D] [LT D] [DecidableLT D]
  {pieces : Fin n → List Bytes} {mode : Serving} {turns : List (Turn n)} {s : Deliberation n}

/-- What has been elected, as an attempt: it is complete, and answers with its full text. -/
theorem Over.elected_spec (htwo : 2 ≤ n) (hover : Over pieces mode turns s) :
    ∃ i : Fin n, s.elected D = i ∧ s.Completed pieces i ∧
      (s.verdict D).1 = fullText pieces i ∧
      (s.winner = some i ∨ ((∀ j, s.Completed pieces j) ∧
        (i : ℕ) = electNumeric D (List.ofFn (fullText pieces)))) := by
  have hs := counted_perform counted_initial hover.1
  rcases hover.winner_or_completed with ⟨w, hw⟩ | ⟨hnone, hall⟩
  · obtain ⟨hdone, -, -⟩ := hs.winner w hw
    have helected : s.elected D = w := by rw [elected, hw]
    refine ⟨w, helected, hdone, ?_, .inl hw⟩
    show (List.ofFn s.outs).getD (s.elected D) [] = _
    rw [helected, getD_ofFn, hs.outs_completed hdone]
  · have houts : s.outs = fullText pieces := funext fun i => hs.outs_completed (hall i)
    have helected : s.elected D = electNumeric D (List.ofFn (fullText pieces)) := by
      rw [elected, hnone, houts]
    have hne : List.ofFn (fullText pieces) ≠ [] := by
      rw [← List.length_pos_iff, List.length_ofFn]
      omega
    have hlt := electNumeric_lt D hne
    rw [List.length_ofFn] at hlt
    refine ⟨⟨_, hlt⟩, helected, hall _, ?_, .inr ⟨hall, rfl⟩⟩
    show (List.ofFn s.outs).getD (s.elected D) [] = _
    rw [helected, houts]
    exact getD_ofFn (fullText pieces) ⟨_, hlt⟩ []

/-- In every order: a number that more than half of the full texts end with is elected, in a
complete answer; without one all attempts are complete, and the full election decides.  The texts
that were cut off are nothing to it: had these attempts gone on to say anything else, or said it
before, the same turns would elect the same answer. -/
theorem early_consensus_agrees (htwo : 2 ≤ n) (hover : Over pieces mode turns s) :
    (∀ v, v ≠ [] → HasMajority (fun i => finalNumber (fullText pieces i)) v →
      ∃ i, s.Completed pieces i ∧ finalNumber (fullText pieces i) = v ∧
        (s.verdict D).1 = fullText pieces i) ∧
      ((∀ v, v ≠ [] → ¬ HasMajority (fun i => finalNumber (fullText pieces i)) v) →
        (∀ i, s.Completed pieces i) ∧ ∃ i : Fin n,
          (i : ℕ) = electNumeric D (List.ofFn (fullText pieces)) ∧
            (s.verdict D).1 = fullText pieces i) ∧
      ∀ pieces', SameSoFar pieces pieces' s → ∃ s', Over pieces' mode turns s' ∧
        s'.elected D = s.elected D ∧ (s'.verdict D).1 = (s.verdict D).1 := by
  have hs := counted_perform counted_initial hover.1
  obtain ⟨i, helected, hdone, hanswer, hdecided⟩ := hover.elected_spec D htwo
  refine ⟨fun v hv hmajority => ?_, fun hsplit => ?_, fun pieces' hsame => ?_⟩
  · refine ⟨i, hdone, ?_, hanswer⟩
    rcases hdecided with hwinner | ⟨-, hnumeric⟩
    · exact (hs.hasMajority hwinner).unique hmajority
    · obtain ⟨j, hj, hnumber⟩ := electNumeric_of_majority D htwo (fullText pieces) hv hmajority
      obtain rfl : i = j := Fin.ext (hnumeric.trans hj)
      exact hnumber
  · rcases hdecided with hwinner | ⟨hall, hnumeric⟩
    · exact absurd (hs.hasMajority hwinner) (hsplit _ (hs.winner i hwinner).2.1)
    · exact ⟨hall, i, hnumeric, hanswer⟩
  · obtain ⟨s', hperform, hagrees⟩ := Agrees.perform hsame
      (⟨rfl, rfl, rfl, rfl, fun _ _ => rfl⟩ : Agrees pieces pieces' initial initial)
      counted_initial hover.1
    have hover' : Over pieces' mode turns s' := by
      refine ⟨hperform, ?_⟩
      rw [hagrees.attempts, hagrees.stop]
      exact hover.2
    have houts : s'.outs i = s.outs i := hagrees.outs i (hsame.eq_of_length hdone.2)
    have helected' : s'.elected D = i := by
      rcases hdecided with hwinner | ⟨hall, -⟩
      · rw [elected, hagrees.winner, hwinner]
      · have heq : s'.outs = s.outs :=
          funext fun j => hagrees.outs j (hsame.eq_of_length (hall j).2)
        rw [elected, hagrees.winner, heq]
        exact helected
    refine ⟨s', hover', helected'.trans helected.symm, ?_⟩
    show (List.ofFn s'.outs).getD (s'.elected D) [] = (List.ofFn s.outs).getD (s.elected D) []
    rw [helected', helected, getD_ofFn, getD_ofFn, houts]

/-- What `votes_for` counts besides the complete attempts. -/
theorem Over.votes_eq (hover : Over pieces mode turns s)
    (hnumber : finalNumber (s.verdict D).1 ≠ []) :
    (s.verdict D).2 = (s.backers pieces (finalNumber (s.verdict D).1)).card +
      (Finset.univ.filter fun i => (s.attempts i).phase = .deposited ∧ ¬ s.Completed pieces i ∧
        finalNumber (textAfter pieces i (s.attempts i).given) =
          finalNumber (s.verdict D).1).card := by
  have hs := counted_perform counted_initial hover.1
  let num := finalNumber (s.verdict D).1
  have hvotes : (s.verdict D).2 =
      (Finset.univ.filter fun i => finalNumber (s.outs i) = num).card := by
    calc (s.verdict D).2
        = (List.ofFn s.outs).countP fun out => finalNumber out = num := if_neg hnumber
      _ = (Finset.univ.filter fun i => finalNumber (s.outs i) = num).card := by
        rw [Majority.countP_ofFn]
        simp only [decide_eq_true_eq]
  rw [hvotes, backers, ← Finset.card_union_of_disjoint (Finset.disjoint_filter.mpr
    fun i _ hdone hcut => hcut.2.1 hdone.1)]
  congr 1
  ext i
  rw [Finset.mem_union, Finset.mem_filter, Finset.mem_filter, Finset.mem_filter]
  by_cases hdone : s.Completed pieces i
  · rw [hs.outs_completed hdone]
    simp [hdone, num]
  · by_cases hin : (s.attempts i).phase = .deposited
    · rw [hs.outs, if_pos hin]
      simp [hdone, hin, num]
    · -- Nothing was deposited, and nothing is no number.
      rw [hs.outs, if_neg hin]
      have hnothing : finalNumber [] ≠ num := Ne.symm hnumber
      simp [hdone, hin, hnothing]

/-- In every order: where the answer ends with a number, `consensus_votes` is the number of complete
attempts that end with it, if and only if no attempt was cut off where its text happens to end with
the number that more than half of the full texts end with. -/
theorem consensus_votes_iff (htwo : 2 ≤ n) (hover : Over pieces mode turns s)
    (hnumber : finalNumber (s.verdict D).1 ≠ []) :
    (s.verdict D).2 = (Finset.univ.filter fun i => s.Completed pieces i ∧
        finalNumber (fullText pieces i) = finalNumber (s.verdict D).1).card ↔
      ∀ i, (s.attempts i).phase = .deposited → ¬ s.Completed pieces i → ∀ v,
        HasMajority (fun i => finalNumber (fullText pieces i)) v →
          finalNumber (textAfter pieces i (s.attempts i).given) ≠ v := by
  have hs := counted_perform counted_initial hover.1
  obtain ⟨w, -, -, hanswer, hdecided⟩ := hover.elected_spec D htwo
  -- If an attempt was cut off, there is a winner, and the answer has the majority.
  have hmajority : ∀ i, ¬ s.Completed pieces i →
      HasMajority (fun i => finalNumber (fullText pieces i)) (finalNumber (s.verdict D).1) := by
    intro i hcut
    rcases hdecided with hwinner | ⟨hall, -⟩
    · rw [hanswer]
      exact hs.hasMajority hwinner
    · exact absurd (hall i) hcut
  have hcount : (s.verdict D).2 = (Finset.univ.filter fun i => s.Completed pieces i ∧
      finalNumber (fullText pieces i) = finalNumber (s.verdict D).1).card + _ :=
    hover.votes_eq D hnumber
  rw [hcount, Nat.add_eq_left, Finset.card_eq_zero, Finset.filter_eq_empty_iff]
  constructor
  · intro hnone i hin hcut v hv hsame
    obtain rfl := (hmajority i hcut).unique hv
    exact hnone (Finset.mem_univ i) ⟨hin, hcut, hsame⟩
  · intro hclean i _ hcounted
    exact hclean i hcounted.1 hcounted.2.1 _ (hmajority i hcounted.2.1) hcounted.2.2

end Verdict

end Deliberation

/-! ## The attempts in the scheduler -/

section Heard

variable {K : Type*} [Field K] [LinearOrder K] {scheduler : Scheduler K} {callback : TokenCallback}
  (hquiet : ∀ delivered, callback delivered ≠ .throws) {d d' : Dialogue K}
include hquiet

/-- The last turn of an attempt that nobody stops is its last with any callback. -/
theorem advance_last {full : Outcome}
    (hstep : scheduler.advance { d with onToken := fun _ => .keepGoing } = .inr full) :
    scheduler.advance { d with onToken := callback } = .inr full ∧
      full.delivered.length ≤ d.delivered.length + 1 := by
  unfold Scheduler.advance at hstep ⊢
  dsimp only at hstep ⊢
  split at hstep
  · cases hstep
    exact ⟨rfl, Nat.le_succ _⟩
  · rename_i next sampler _
    split at hstep
    · rename_i hend
      cases hstep
      rw [if_pos hend]
      exact ⟨rfl, Nat.le_succ _⟩
    · rename_i hend
      split at hstep
      · rename_i hover
        cases hstep
        rw [if_neg hend]
        refine ⟨?_, by simp⟩
        cases hcallback : callback (d.delivered ++ [next]) with
        | throws => exact absurd hcallback (hquiet _)
        | stop => rfl
        | keepGoing => exact if_pos hover
      · cases hstep

/-- Another turn delivers a token, after which the callback may stop the attempt. -/
theorem advance_heard_next
    (hstep : scheduler.advance { d with onToken := fun _ => .keepGoing } = .inl d') :
    d' = { d' with onToken := fun _ => .keepGoing } ∧ ∃ next,
      d'.delivered = d.delivered ++ [next] ∧
      ((callback (d.delivered ++ [next]) = .stop ∧
          scheduler.advance { d with onToken := callback } =
            .inr ⟨none, d.delivered ++ [next]⟩) ∨
        (callback (d.delivered ++ [next]) = .keepGoing ∧
          scheduler.advance { d with onToken := callback } =
            .inl { d' with onToken := callback })) := by
  unfold Scheduler.advance at hstep ⊢
  dsimp only at hstep ⊢
  split at hstep
  · cases hstep
  · rename_i next sampler _
    split at hstep
    · cases hstep
    · rename_i hend
      split at hstep
      · cases hstep
      · rename_i hover
        cases hstep
        refine ⟨rfl, next, rfl, ?_⟩
        rw [if_neg hend]
        cases hcallback : callback (d.delivered ++ [next]) with
        | throws => exact absurd hcallback (hquiet _)
        | stop => exact .inl ⟨rfl, rfl⟩
        | keepGoing => exact .inr ⟨rfl, if_neg hover⟩

/-- An attempt that is stopped has said the beginning of what it would have said, up to the token
after which its callback wanted no more; one that is not has said all of it. -/
theorem advance_heard {full : Outcome}
    (hfull : Loop.Exits scheduler.advance { d with onToken := fun _ => .keepGoing } full) :
    ∃ out, Loop.Exits scheduler.advance { d with onToken := callback } out ∧
      out.delivered <+: full.delivered ∧
      (out = full ∨ (out.error = none ∧ callback out.delivered = .stop)) ∧
      ∀ part, part <+: out.delivered → d.delivered.length < part.length →
        part.length < out.delivered.length → callback part = .keepGoing := by
  generalize hd : ({ d with onToken := fun _ => .keepGoing } : Dialogue K) = first at hfull
  induction hfull generalizing d with
  | @leave first full hstep =>
      subst hd
      obtain ⟨hlast, hlength⟩ := advance_last hquiet hstep
      exact ⟨full, .leave hlast, List.prefix_rfl, .inl rfl, fun part _ hlong hshort => by omega⟩
  | @next first after full hstep hrest ih =>
      subst hd
      obtain ⟨hafter, next, hdelivered, hcases⟩ := advance_heard_next hquiet hstep
      rcases hcases with ⟨hstop, hlast⟩ | ⟨hgoes, hnext⟩
      · refine ⟨_, .leave hlast, ?_, .inr ⟨rfl, hstop⟩, fun part _ hlong hshort => ?_⟩
        · exact hdelivered ▸ Scheduler.prefix_delivered hrest
        · simp only [List.length_append, List.length_singleton] at hshort
          omega
      · obtain ⟨out, hexits, hpre, hends, hparts⟩ := ih (d := after) hafter.symm
        refine ⟨out, .next hnext hexits, hpre, hends, fun part hpart hlong hshort => ?_⟩
        rw [hdelivered, List.length_append, List.length_singleton] at hparts
        rcases Nat.lt_or_ge (d.delivered.length + 1) part.length with hlater | hfirst
        · exact hparts part hpart hlater hshort
        · -- The part ends with the token of this turn.
          have hbegins := Scheduler.prefix_delivered hexits
          dsimp only at hbegins
          have hpart' : part = after.delivered := by
            refine (List.prefix_of_prefix_length_le hpart hbegins ?_).eq_of_length ?_ <;>
              rw [hdelivered, List.length_append, List.length_singleton] <;> omega
          rw [hpart', hdelivered]
          exact hgoes

end Heard

namespace Deliberation

/-! ## A straggler -/

/-- Three attempts: two say `42`, and one says more after it. -/
def threeAttempts (third : List Bytes) : Fin 3 → List Bytes
  | 0 | 1 => [ascii "42"]
  | 2 => third

/-- The first two come in, and the third is stopped after a piece. -/
def cutTurns : List (Turn 3) :=
  [.piece 0 false, .finish 0, .deposit 0, .piece 1 false, .finish 1, .deposit 1, .piece 2 true,
    .deposit 2]

/-- Where the turns end. -/
theorem exists_over (third : List Bytes) (p : Deliberation 3 → Bool)
    (hperform : (Interleaving.perform (step (threeAttempts third)) (Allowed .parallel) initial
      cutTurns).any (fun s => decide (∀ i, (s.attempts i).phase = .deposited) && p s) = true) :
    ∃ s, Over (threeAttempts third) .parallel cutTurns s ∧ p s = true := by
  obtain ⟨s, hs, hp⟩ := (Option.any_eq_true _ _).mp hperform
  obtain ⟨hall, hp⟩ := Bool.and_eq_true_iff.mp hp
  exact ⟨s, ⟨hs, .inl (of_decide_eq_true hall)⟩, hp⟩

/-- A third text that would have ended otherwise. -/
theorem early_consensus_three :
    ∃ s, Over (threeAttempts [ascii "7", ascii "0"]) .parallel cutTurns s ∧
      (s.verdict ℚ).1 = ascii "42" := by
  obtain ⟨s, hover, -⟩ := exists_over [ascii "7", ascii "0"] (fun _ => true) (by decide +kernel)
  obtain ⟨hagrees, -⟩ := early_consensus_agrees ℚ (by decide) hover
  obtain ⟨i, -, hnumber, hanswer⟩ := hagrees (ascii "42") (by decide) (by decide +kernel)
  have htexts : ∀ i, finalNumber (fullText (threeAttempts [ascii "7", ascii "0"]) i) = ascii "42" →
      fullText (threeAttempts [ascii "7", ascii "0"]) i = ascii "42" := by decide +kernel
  exact ⟨s, hover, hanswer.trans (htexts i hnumber)⟩

/-- Cut off at another number, the third attempt is not counted. -/
theorem consensus_votes_three :
    ∃ s, Over (threeAttempts [ascii "7", ascii "0"]) .parallel cutTurns s ∧
      (s.verdict ℚ).2 = (Finset.univ.filter fun i =>
        s.Completed (threeAttempts [ascii "7", ascii "0"]) i ∧
          finalNumber (fullText (threeAttempts [ascii "7", ascii "0"]) i) =
            finalNumber (s.verdict ℚ).1).card := by
  obtain ⟨s, hover, hs⟩ := exists_over [ascii "7", ascii "0"]
    (fun s => decide (finalNumber (s.verdict ℚ).1 ≠ [] ∧ finalNumber (textAfter
      (threeAttempts [ascii "7", ascii "0"]) 2 (s.attempts 2).given) = ascii "7" ∧
      s.Completed (threeAttempts [ascii "7", ascii "0"]) 0 ∧
      s.Completed (threeAttempts [ascii "7", ascii "0"]) 1)) (by decide +kernel)
  obtain ⟨hnumber, hseven, hfirst, hsecond⟩ := of_decide_eq_true hs
  refine ⟨s, hover, (consensus_votes_iff ℚ (by decide) hover hnumber).mpr ?_⟩
  intro i _ hcut v hv
  match i with
  | 0 => exact absurd hfirst hcut
  | 1 => exact absurd hsecond hcut
  | 2 =>
      rw [hseven]
      rintro rfl
      exact absurd hv (by decide +kernel)

/-- Cut off after `42`, the third attempt is counted, and would have gone on to say `420`. -/
theorem straggler_counted :
    ∃ s, Over (threeAttempts [ascii "42", ascii "0"]) .parallel cutTurns s ∧
      (s.verdict ℚ).1 = ascii "42" ∧ (s.verdict ℚ).2 = 3 ∧
      (Finset.univ.filter fun i => s.Completed (threeAttempts [ascii "42", ascii "0"]) i ∧
        finalNumber (fullText (threeAttempts [ascii "42", ascii "0"]) i) =
          finalNumber (s.verdict ℚ).1).card = 2 := by
  obtain ⟨s, hover, hs⟩ := exists_over [ascii "42", ascii "0"]
    (fun s => decide ((s.verdict ℚ).1 = ascii "42" ∧ (s.verdict ℚ).2 = 3 ∧
      (Finset.univ.filter fun i => s.Completed (threeAttempts [ascii "42", ascii "0"]) i ∧
        finalNumber (fullText (threeAttempts [ascii "42", ascii "0"]) i) =
          finalNumber (s.verdict ℚ).1).card = 2)) (by decide +kernel)
  exact ⟨s, hover, of_decide_eq_true hs⟩

end Deliberation

end Reame.Engine
