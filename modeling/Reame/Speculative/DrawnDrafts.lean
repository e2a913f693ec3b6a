import Reame.Core.Nucleus
import Reame.Foundation.Drawing
import Reame.Speculative.Exactness
import Reame.Speculative.Iteration

/-!
# Drafts and verifications as programs that draw

At every temperature the sampler draws from a distribution (`isDistribution_distributionOf`).
`rolloutDrawing` is `generate_draft` with a draft model that does not fail, `verifyDrawing` the
loop of `verify_batch`; each reads the variates of one generator.  `run_rolloutDrawing` and
`run_verifyDrawing` say so.

Take a value of token sequences that the target family keeps on average: the mean of the value
after one more token is the value (`Martingale`).  Then drafting and verifying keep it too,
whatever the draft model (`mean_rollout_verify`), and so does the verification of looked-up tokens
(`mean_verify_oneHot`).  One position of a draft is where that is decided (`mean_position`): what
acceptance leaves out of the target's mean, the correction puts back.
-/

namespace Reame.Speculative

open Reame.Core MeasureTheory
open scoped ENNReal

variable {γ : Type*} (g : γ)

/-! ## Draws and tests -/

/-- A draw from a distribution. -/
noncomputable def tokenDrawing (probs : List ℝ) : Drawing γ ℕ :=
  .read g ⟨fun u => drawLoop 0 0 u probs, measurable_drawLoop probs 0 0⟩

/-- The acceptance test; it reads one when the token passes. -/
noncomputable def testDrawing (p q : ℝ) : Drawing γ ℕ :=
  .read g ⟨fun u => if acceptToken p q u then 1 else 0,
    Measurable.ite (measurableSet_accept p q) measurable_const measurable_const⟩

/-- The mean over a draw. -/
theorem mean_tokenDrawing {probs : List ℝ} (hprobs : IsDistribution probs) (value : ℕ → ℝ≥0∞) :
    (tokenDrawing g probs).mean value =
      ∑ j ∈ Finset.range probs.length, ENNReal.ofReal (probs.getD j 0) * value j := by
  have hmean := Drawing.mean_read value g
    ⟨fun u => drawLoop 0 0 u probs, measurable_drawLoop probs 0 0⟩ (n := probs.length)
    fun j hj => by
      rw [unitUniform_draw hprobs, List.getD_eq_getElem?_getD, List.getElem?_eq_none hj,
        Option.getD_none, ENNReal.ofReal_zero]
  simp only [unitUniform_draw hprobs] at hmean
  exact hmean

/-- A token is drafted, and then the test passes or fails. -/
theorem mul_mean_testDrawing {p q : List ℝ} (hp : IsDistribution p) (hq : IsDistribution q) (d : ℕ)
    (value : ℕ → ℝ≥0∞) :
    ENNReal.ofReal (q.getD d 0) * (testDrawing g (p.getD d 0) (q.getD d 0)).mean value =
      ENNReal.ofReal (q.getD d 0 * min 1 (p.getD d 0 / q.getD d 0)) * value 1 +
        ENNReal.ofReal (q.getD d 0 * (1 - min 1 (p.getD d 0 / q.getD d 0))) * value 0 := by
  obtain ⟨hpasses, hfails⟩ := draw_mul_test hp hq d
  rw [unitUniform_draw_int hq] at hpasses hfails
  have hone : {u | (if acceptToken (p.getD d 0) (q.getD d 0) u then 1 else 0) = 1} =
      {u | acceptToken (p.getD d 0) (q.getD d 0) u = true} := by
    ext u
    simp
  have hzero : {u | (if acceptToken (p.getD d 0) (q.getD d 0) u then 1 else 0) = 0} =
      {u | acceptToken (p.getD d 0) (q.getD d 0) u = true}ᶜ := by
    ext u
    simp
  have hmean := Drawing.mean_read value g
    ⟨fun u => if acceptToken (p.getD d 0) (q.getD d 0) u then 1 else 0,
      Measurable.ite (measurableSet_accept _ _) measurable_const measurable_const⟩ (n := 2)
    fun j hj => by
      have hnever : {u | (if acceptToken (p.getD d 0) (q.getD d 0) u then 1 else 0) = j} = ∅ := by
        ext u
        simp only [Set.mem_ofPred_eq, Set.mem_empty_iff_false, iff_false]
        split <;> omega
      exact hnever ▸ measure_empty
  rw [Finset.sum_range_succ, Finset.sum_range_one] at hmean
  dsimp only at hmean
  rw [hone, hzero] at hmean
  rw [testDrawing, hmean, mul_add, ← mul_assoc, ← mul_assoc, hpasses, hfails, add_comm]

theorem getD_oneHot {n i j : ℕ} (hi : i < n) :
    (oneHot n i : List ℝ).getD j 0 = if j = i then 1 else 0 := by
  rw [List.getD_eq_getElem?_getD]
  rcases Nat.lt_or_ge j n with hj | hj
  · rw [getElem?_oneHot hi hj, Option.getD_some]
  · rw [List.getElem?_eq_none (by rw [length_oneHot]; exact hj), Option.getD_none,
      if_neg (by omega)]

theorem isDistribution_oneHot {n i : ℕ} (hi : i < n) : IsDistribution (oneHot n i) := by
  refine ⟨fun x hx => ?_, sum_oneHot hi⟩
  obtain ⟨j, hj, rfl⟩ := List.getElem_of_mem hx
  have hentry := getD_oneHot (j := j) hi
  rw [List.getD_eq_getElem?_getD, List.getElem?_eq_getElem hj, Option.getD_some] at hentry
  rw [hentry]
  split
  · exact zero_le_one
  · exact le_rfl

/-! ## The sampler's distributions -/

/-- The nucleus of weights is a distribution. -/
theorem isDistribution_nucleus (lib : StdLib ℝ) (topP : ℝ) {probs : List ℝ}
    (hpos : ∀ p ∈ probs, 0 < p) (hsum : probs.sum = 1) :
    IsDistribution (nucleus lib topP probs) := by
  rcases lt_or_ge topP 1 with hhigh | hwhole
  · have hne : probs ≠ [] := by
      rintro rfl
      exact zero_ne_one hsum
    set key := fun i => probs.getD i 0
    set sorted := (lib.sort key (List.range probs.length)).map key
    have hfull : probs.Perm sorted := by
      have hperm := (lib.sort_perm key (List.range probs.length)).map key
      rw [map_getD_range] at hperm
      exact hperm.symm
    have hdescending : sorted.Pairwise fun a b => b ≤ a :=
      List.pairwise_map.mpr (lib.sort_sorted key _)
    obtain ⟨order, hperm, htop, hentry⟩ := getD_nucleus lib hne hhigh hfull hdescending
    obtain ⟨hnucleus, hmass, -, -⟩ :=
      isNucleus_toFinset hfull hdescending hne (hsum ▸ hhigh.le) hperm htop
    set T := (order.take (keepWhile topP 0 sorted).1).toFinset with hT
    have hkey : ∀ i ∈ T, 0 < key i := by
      intro i hi
      have hlt := hnucleus.within i hi
      show 0 < probs.getD i 0
      rw [List.getD_eq_getElem?_getD, List.getElem?_eq_getElem hlt, Option.getD_some]
      exact hpos _ (List.getElem_mem hlt)
    have hpositive : 0 < massOf probs T := Finset.sum_pos hkey hnucleus.nonempty
    have hvalue : ∀ j, (nucleus lib topP probs).getD j 0 =
        if j ∈ T then key j / massOf probs T else 0 := by
      intro j
      rw [hmass, hentry j]
      simp only [hT, List.mem_toFinset]
      rfl
    refine ⟨fun x hx => ?_, ?_⟩
    · obtain ⟨j, hj, rfl⟩ := List.getElem_of_mem hx
      have hj' := hvalue j
      rw [List.getD_eq_getElem?_getD, List.getElem?_eq_getElem hj, Option.getD_some] at hj'
      rw [hj']
      split
      · rename_i hmem
        exact div_nonneg (hkey j hmem).le hpositive.le
      · exact le_rfl
    · have hsub : T ⊆ Finset.range probs.length :=
        fun i hi => Finset.mem_range.mpr (hnucleus.within i hi)
      calc (nucleus lib topP probs).sum
          = ∑ i ∈ Finset.range probs.length, (if i ∈ T then key i / massOf probs T else 0) := by
            rw [sum_eq_sum_range (length_nucleus lib topP probs).le]
            exact Finset.sum_congr rfl fun i _ => hvalue i
        _ = massOf probs T / massOf probs T := by
            rw [Finset.sum_ite_mem, Finset.inter_eq_right.mpr hsub, ← Finset.sum_div, massOf]
        _ = 1 := div_self hpositive.ne'
  · rw [nucleus, dif_neg fun h => absurd h.1 (not_lt.mpr hwhole)]
    exact ⟨fun p hp => (hpos p hp).le, hsum⟩

/-- At every temperature the sampler draws from a distribution. -/
theorem isDistribution_distributionOf (lib : StdLib ℝ) (config : GenerationConfig ℝ)
    {logits : List ℝ} (hne : logits ≠ []) (recent : List TokenId) :
    IsDistribution (distributionOf lib config logits recent) := by
  rcases le_or_gt config.temperature 0 with hgreedy | hwarm
  · have hpenalized : penalize config logits recent ≠ [] := by
      rw [← List.length_pos_iff, length_penalize]
      exact List.length_pos_iff.mpr hne
    rw [distributionOf, if_pos hgreedy]
    exact isDistribution_oneHot (maxElement_lt hpenalized)
  · obtain ⟨probs, hpos, hsum, -, hdistribution⟩ :=
      distributionOf_of_temperature lib hwarm hne recent
    rw [hdistribution]
    exact isDistribution_nucleus lib _ hpos hsum

/-! ## One position -/

/-- Draft a token, test it, and correct it when it fails: on average this is a draw from the
target. -/
theorem mean_position {p q : List ℝ} (hp : IsDistribution p) (hq : IsDistribution q)
    (value : ℕ → ℝ≥0∞) (failed : ℝ≥0∞)
    (hfailed : failed = ∑ x ∈ Finset.range p.length,
      ENNReal.ofReal ((residualDistribution p q).getD x 0) * value x) :
    ∑ d ∈ Finset.range q.length, ENNReal.ofReal (q.getD d 0) *
        (testDrawing g (p.getD d 0) (q.getD d 0)).mean
          (fun passed => if passed = 1 then value d else failed) =
      ∑ x ∈ Finset.range p.length, ENNReal.ofReal (p.getD x 0) * value x := by
  set accepted := fun d => q.getD d 0 * min 1 (p.getD d 0 / q.getD d 0) with haccepted
  set rejected := fun d => q.getD d 0 * (1 - min 1 (p.getD d 0 / q.getD d 0)) with hrejected
  have hrejected0 : ∀ d, 0 ≤ rejected d := fun d =>
    mul_nonneg (hq.getD_nonneg d) (sub_nonneg.mpr (min_le_left _ _))
  have haccepted0 : ∀ d, 0 ≤ accepted d := fun d =>
    mul_nonneg (hq.getD_nonneg d)
      (le_min zero_le_one (div_nonneg (hp.getD_nonneg d) (hq.getD_nonneg d)))
  have hresidual0 := fun x => (isDistribution_residual (q := q) hp).getD_nonneg x
  -- Beyond the other's vector neither model accepts anything.
  have hbeyond : ∀ {v : List ℝ} {x : ℕ}, v.length ≤ x → v.getD x 0 = 0 := fun {v x} hx => by
    rw [List.getD_eq_getElem?_getD, List.getElem?_eq_none hx, Option.getD_none]
  have hsupport : ∀ x, x ∉ Finset.range q.length ∨ x ∉ Finset.range p.length → accepted x = 0 := by
    intro x hx
    simp only [Finset.mem_range, not_lt] at hx
    rcases hx with hx | hx
    · rw [haccepted]
      dsimp only
      rw [hbeyond hx, zero_mul]
    · rw [haccepted]
      dsimp only
      rw [hbeyond hx, zero_div, min_eq_right zero_le_one, mul_zero]
  have hsame : ∑ d ∈ Finset.range q.length, ENNReal.ofReal (accepted d) * value d =
      ∑ x ∈ Finset.range p.length, ENNReal.ofReal (accepted x) * value x := by
    refine Finset.sum_congr_of_eq_on_inter (fun x _ hx => ?_) (fun x _ hx => ?_) fun _ _ _ => rfl
    · rw [hsupport x (.inr hx), ENNReal.ofReal_zero, zero_mul]
    · rw [hsupport x (.inl hx), ENNReal.ofReal_zero, zero_mul]
  calc ∑ d ∈ Finset.range q.length, ENNReal.ofReal (q.getD d 0) *
        (testDrawing g (p.getD d 0) (q.getD d 0)).mean
          (fun passed => if passed = 1 then value d else failed)
      = ∑ d ∈ Finset.range q.length, (ENNReal.ofReal (accepted d) * value d +
          ENNReal.ofReal (rejected d) * failed) := by
        refine Finset.sum_congr rfl fun d _ => ?_
        rw [mul_mean_testDrawing g hp hq, if_pos rfl, if_neg zero_ne_one]
    _ = ∑ x ∈ Finset.range p.length, ENNReal.ofReal (accepted x) * value x +
          ENNReal.ofReal (∑ d ∈ Finset.range q.length, rejected d) * failed := by
        rw [Finset.sum_add_distrib, hsame, ← Finset.sum_mul,
          ENNReal.ofReal_sum_of_nonneg fun d _ => hrejected0 d]
    _ = ∑ x ∈ Finset.range p.length, (ENNReal.ofReal (accepted x) +
          ENNReal.ofReal (∑ d ∈ Finset.range q.length, rejected d) *
            ENNReal.ofReal ((residualDistribution p q).getD x 0)) * value x := by
        rw [hfailed, Finset.mul_sum, ← Finset.sum_add_distrib]
        exact Finset.sum_congr rfl fun x _ => by rw [add_mul, mul_assoc]
    _ = ∑ x ∈ Finset.range p.length, ENNReal.ofReal (p.getD x 0) * value x := by
        refine Finset.sum_congr rfl fun x _ => ?_
        have htotal := Finset.sum_nonneg fun d (_ : d ∈ Finset.range q.length) => hrejected0 d
        rw [← ENNReal.ofReal_mul htotal, ← ENNReal.ofReal_add (haccepted0 x)
          (mul_nonneg htotal (hresidual0 x)), Finset.sum_mul, accepted_add_corrected hp hq]

/-! ## Verification -/

/-- The loop of `verify_batch`. -/
noncomputable def verifyDrawing (target : List TokenId → Except Fault (List ℝ)) :
    List TokenId → List (List ℝ) → List TokenId → Drawing γ (Except Fault VerificationResult)
  | [], _, accepted => .done (.ok ⟨accepted, 0, none⟩)
  | _ :: _, [], _ => .done (.error .outOfBounds)
  | d :: tokens, draftProbs :: probs, accepted =>
      match target accepted with
      | .error fault => .done (.error fault)
      | .ok targetProbs =>
          match index targetProbs d, index draftProbs d with
          | .ok p, .ok q =>
              (testDrawing g p q).bind fun passed =>
                if passed = 1 then verifyDrawing target tokens probs (accepted ++ [d])
                else (tokenDrawing g (residualDistribution targetProbs draftProbs)).map
                  fun corrected : ℕ => .ok ⟨accepted, tokens.length + 1, some (corrected : ℤ)⟩
          | .error fault, _ => .done (.error fault)
          | _, .error fault => .done (.error fault)

/-- A generator of the streams, where it stands. -/
def rngAt (ω : Drawing.Variates γ) (positions : γ → ℕ) : Rng ℝ := ⟨fun i => ω (g, i), positions g⟩

/-- The verifier draws from its own generator. -/
theorem only_verifyDrawing (target : List TokenId → Except Fault (List ℝ)) (tokens : List TokenId)
    (probs : List (List ℝ)) (accepted : List TokenId) :
    (verifyDrawing g target tokens probs accepted).Only g := by
  induction tokens generalizing probs accepted with
  | nil => trivial
  | cons d tokens ih =>
      cases probs with
      | nil => trivial
      | cons draftProbs probs =>
          rw [verifyDrawing]
          split
          · trivial
          · split
            · refine (Drawing.only_read g _).bind fun passed => ?_
              split
              · exact ih _ _
              · exact (Drawing.only_read g _).map _
            · trivial
            · trivial

section Runs

variable [DecidableEq γ] (ω : Drawing.Variates γ) (positions : γ → ℕ)

theorem next_rngAt : (rngAt g ω positions).next =
    (ω (g, positions g), rngAt g ω (Drawing.advance positions g)) := by
  rw [Rng.next, rngAt, rngAt, Drawing.advance, Function.update_self]

theorem run_tokenDrawing (probs : List ℝ) : (tokenDrawing g probs).run ω positions =
    (drawLoop 0 0 (ω (g, positions g)) probs, Drawing.advance positions g) :=
  rfl

theorem run_testDrawing (p q : ℝ) : (testDrawing g p q).run ω positions =
    (if acceptToken p q (ω (g, positions g)) then 1 else 0, Drawing.advance positions g) :=
  rfl

theorem run_verifyDrawing (target : List TokenId → Except Fault (List ℝ)) (tokens : List TokenId)
    (probs : List (List ℝ)) (accepted : List TokenId) :
    verifyLoop target tokens probs accepted (rngAt g ω positions) =
      (((verifyDrawing g target tokens probs accepted).run ω positions).1,
        rngAt g ω ((verifyDrawing g target tokens probs accepted).run ω positions).2) := by
  induction tokens generalizing probs accepted positions with
  | nil => rfl
  | cons d tokens ih =>
      cases probs with
      | nil => rfl
      | cons draftProbs probs =>
          rw [verifyLoop, verifyDrawing]
          cases target accepted with
          | error fault => rfl
          | ok targetProbs =>
              dsimp only
              cases index targetProbs d with
              | error fault => rfl
              | ok p =>
                  cases index draftProbs d with
                  | error fault => rfl
                  | ok q =>
                      dsimp only
                      rw [next_rngAt, Drawing.run_bind, run_testDrawing]
                      dsimp only
                      by_cases haccept : acceptToken p q (ω (g, positions g)) = true
                      · rw [if_pos haccept, if_pos haccept, if_pos rfl]
                        exact ih _ _ _
                      · rw [if_neg haccept, if_neg haccept, if_neg zero_ne_one, Drawing.run_map,
                          run_tokenDrawing, drawFrom, next_rngAt]

end Runs

/-! ## Rollouts -/

/-- The loop of `generate_draft`, with a draft model that does not fail: the drafted tokens, each
with the distribution it was drawn from, and the draft sequence. -/
noncomputable def rolloutDrawing (lib : StdLib ℝ) (config : GenerationConfig ℝ)
    (backend : LlamaBackend ℝ) : ℕ → TokenId → List TokenId → DraftState →
    Drawing γ (List (TokenId × List ℝ) × DraftState)
  | 0, _, _, draft => .done ([], draft)
  | n + 1, cur, history, draft =>
      let kv := draft.kv ++ [cur]
      let probs := distributionOf lib config (backend.logits kv) history
      (tokenDrawing g probs).bind fun next : ℕ =>
        if (next : ℤ) = backend.eosToken then .done ([((next : ℤ), probs)], ⟨kv, draft.calls + 1⟩)
        else (rolloutDrawing lib config backend n next (history ++ [(next : ℤ)])
          ⟨kv, draft.calls + 1⟩).map fun out => (((next : ℤ), probs) :: out.1, out.2)

theorem only_rolloutDrawing (lib : StdLib ℝ) (config : GenerationConfig ℝ)
    (backend : LlamaBackend ℝ) (n : ℕ) (cur : TokenId) (history : List TokenId) (draft : DraftState) :
    (rolloutDrawing g lib config backend n cur history draft).Only g := by
  induction n generalizing cur history draft with
  | zero => trivial
  | succ n ih =>
      refine (Drawing.only_read g _).bind fun next => ?_
      split
      · trivial
      · exact (ih _ _ _).map _

theorem run_rolloutDrawing [DecidableEq γ] (ω : Drawing.Variates γ) (lib : StdLib ℝ)
    (config : GenerationConfig ℝ) {backend : FaultyBackend ℝ} (hfree : ∀ i, backend.fails i = false)
    (n : ℕ) (positions : γ → ℕ) (cur : TokenId) (history : List TokenId) (draft : DraftState)
    (result : DraftResult ℝ) :
    let out :=
      (rolloutDrawing g lib config backend.toLlamaBackend n cur history draft).run ω positions
    rolloutLoop lib backend n cur history ⟨config, rngAt g ω positions⟩ draft result =
      ⟨.ok ⟨result.tokens ++ out.1.1.map Prod.fst, result.probs ++ out.1.1.map Prod.snd⟩,
        ⟨config, rngAt g ω out.2⟩, out.1.2⟩ := by
  induction n generalizing positions cur history draft result with
  | zero => simp [rolloutLoop, rolloutDrawing, Drawing.run]
  | succ n ih =>
      have hlogits := backend.logits_ne_nil (draft.kv ++ [cur])
      have hcall : backend.decodeAppend draft [cur] =
          (.ok (backend.logits (draft.kv ++ [cur])), ⟨draft.kv ++ [cur], draft.calls + 1⟩) := by
        simp [FaultyBackend.decodeAppend, FaultyBackend.call, hfree, LlamaBackend.decodeAppend]
      have hprobs : distributionOf lib config (backend.logits (draft.kv ++ [cur])) history ≠ [] := by
        rw [← List.length_pos_iff, length_distributionOf]
        exact List.length_pos_iff.mpr hlogits
      intro out
      simp only [rolloutLoop, hcall, Sampler.distribution, if_neg hlogits, Sampler.draw,
        if_neg hprobs, next_rngAt]
      simp only [out, rolloutDrawing, Drawing.run_bind, run_tokenDrawing]
      split
      · rename_i heos
        simp only [heos, if_true]
        rfl
      · rename_i heos
        simp only [heos, if_false, ih, Drawing.run_map]
        simp

/-! ## Martingales -/

/-- A value of token sequences that a family of distributions keeps on average. -/
def Martingale (p : List TokenId → List ℝ) (value : List TokenId → ℝ≥0∞) : Prop :=
  ∀ w, value w = ∑ x ∈ Finset.range (p w).length,
    ENNReal.ofReal ((p w).getD x 0) * value (w ++ [(x : ℤ)])

/-- The value of a verification is that of the tokens it makes the decoder emit. -/
def Judges (judge : Except Fault VerificationResult → ℝ≥0∞) (value : List TokenId → ℝ≥0∞) : Prop :=
  ∀ result, judge (.ok result) = value result.newTokens

section Verification

variable {p : List TokenId → List ℝ} {value : List TokenId → ℝ≥0∞}
  {judge : Except Fault VerificationResult → ℝ≥0∞} (hp : ∀ w, IsDistribution (p w))
  (hvalue : Martingale p value) (hjudge : Judges judge value)
include hjudge

theorem mean_verify_nil (probs : List (List ℝ)) (w : List TokenId) :
    (verifyDrawing g (fun w => .ok (p w)) [] probs w).mean judge = value w := by
  calc judge (.ok ⟨w, 0, none⟩) = value (w ++ []) := hjudge _
    _ = value w := by rw [List.append_nil]

include hp

/-- The first position of a draft: the verification of the rest, or a correction. -/
theorem mean_verify_cons {w : List TokenId} {q : List ℝ} {d : ℕ} (hd : d < (p w).length)
    (hdraft : d < q.length) (tokens : List TokenId) (probs : List (List ℝ)) :
    (verifyDrawing g (fun w => .ok (p w)) ((d : ℤ) :: tokens) (q :: probs) w).mean judge =
      (testDrawing g ((p w).getD d 0) (q.getD d 0)).mean fun passed =>
        if passed = 1 then
          (verifyDrawing g (fun w => .ok (p w)) tokens probs (w ++ [(d : ℤ)])).mean judge
        else ∑ x ∈ Finset.range (p w).length,
          ENNReal.ofReal ((residualDistribution (p w) q).getD x 0) * value (w ++ [(x : ℤ)]) := by
  rw [verifyDrawing]
  simp only [index_natCast hd, index_natCast hdraft]
  rw [Drawing.mean_bind]
  congr 1
  funext passed
  split
  · rfl
  · rw [Drawing.mean_map, mean_tokenDrawing g (isDistribution_residual (hp w)),
      length_residualDistribution]
    exact Finset.sum_congr rfl fun x _ => by rw [hjudge]; rfl

include hvalue

/-- Verifying looked-up tokens keeps the value. -/
theorem mean_verify_oneHot {n : ℕ} (hlength : ∀ w, (p w).length = n) {tokens : List TokenId}
    {probs : List (List ℝ)} (hdraft : OneHotDraft n tokens probs) (w : List TokenId) :
    (verifyDrawing g (fun w => .ok (p w)) tokens probs w).mean judge = value w := by
  induction hdraft generalizing w with
  | nil => exact mean_verify_nil g hjudge _ w
  | @cons d q tokens probs hhead _ ih =>
      obtain ⟨i, m, hin, him, rfl, rfl⟩ := hhead
      have hposition := mean_position g (hp w) (isDistribution_oneHot him)
        (fun d => value (w ++ [(d : ℤ)])) _ rfl
      -- The looked-up token is the only one the vector draws.
      rw [length_oneHot, Finset.sum_eq_single i, getD_oneHot him, if_pos rfl, ENNReal.ofReal_one,
        one_mul, ← hvalue w] at hposition
      · rw [mean_verify_cons g hp hjudge (by rw [hlength]; exact hin)
          (by rw [length_oneHot]; exact him), ← hposition, getD_oneHot him, if_pos rfl]
        congr 1
        funext passed
        rw [ih]
      · intro j _ hj
        rw [getD_oneHot him, if_neg hj, ENNReal.ofReal_zero, zero_mul]
      · exact fun hout => absurd (Finset.mem_range.mpr him) hout

/-- Drafting with any model of no larger vocabulary and verifying keeps the value. -/
theorem mean_rollout_verify (g' : γ) {n : ℕ} (hlength : ∀ w, (p w).length = n) {lib : StdLib ℝ}
    {config : GenerationConfig ℝ} {backend : LlamaBackend ℝ} (hvocab : backend.vocabSize ≤ n)
    (hdraft : ∀ kv recent, IsDistribution (distributionOf lib config (backend.logits kv) recent))
    (k : ℕ) (cur : TokenId) (history : List TokenId) (draft : DraftState) (w : List TokenId) :
    ((rolloutDrawing g' lib config backend k cur history draft).mean fun out =>
      (verifyDrawing g (fun w => .ok (p w)) (out.1.map Prod.fst) (out.1.map Prod.snd) w).mean
        judge) = value w := by
  induction k generalizing cur history draft w with
  | zero => exact mean_verify_nil (p := p) g hjudge [] w
  | succ k ih =>
      set q := distributionOf lib config (backend.logits (draft.kv ++ [cur])) history with hq
      have hqlength : q.length = backend.vocabSize := by
        rw [hq, length_distributionOf, backend.length_logits]
      have hposition := mean_position g (hp w) (hdraft (draft.kv ++ [cur]) history)
        (fun d => value (w ++ [(d : ℤ)])) _ rfl
      rw [← hvalue w, ← hq] at hposition
      rw [rolloutDrawing, Drawing.mean_bind, mean_tokenDrawing g' (hdraft _ _), ← hq, ← hposition]
      refine Finset.sum_congr rfl fun d hd => congrArg _ ?_
      rw [Finset.mem_range] at hd
      have hdp : d < (p w).length := by rw [hlength]; omega
      split
      · -- The draft ends here.
        calc (verifyDrawing g (fun w => .ok (p w)) [(d : ℤ)] [q] w).mean judge = _ :=
              mean_verify_cons g hp hjudge hdp hd [] []
          _ = _ := by
              congr 1
              funext passed
              rw [mean_verify_nil g hjudge]
      · rw [Drawing.mean_map]
        simp only [List.map_cons, mean_verify_cons g hp hjudge hdp hd]
        rw [Drawing.mean_comm]
        congr 1
        funext passed
        split
        · exact ih _ _ _ _
        · exact Drawing.mean_const _ _

end Verification

end Reame.Speculative
