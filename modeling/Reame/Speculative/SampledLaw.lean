import Reame.Speculative.GreedyCalls
import Reame.Speculative.LookupVocab
import Reame.Speculative.SampledSteps

/-!
# Speculation keeps the law of the text

What a generation is for, at any temperature, is sequential sampling: draw a token from the
target's distribution after the history, hand it to the caller, and go on (`sampledStep`).
Speculation draws from another model, tests, corrects, and emits several tokens in an iteration;
with independent generators the text still has the law of sequential sampling.

`law` is the mean of some value of how sequential sampling ends, and `follow` its mean once some
tokens have been emitted first.  As long as the loop runs, `follow` is a martingale of the target's
distributions (`martingale_follow`); so an iteration, which emits what a verification says, keeps
`law` (`mean_stepDrawing`), and a whole generation does, by induction on the fuel.

The draft model must not fail: whether a failure makes the decoder drop a draft may depend on the
tokens that were drawn for it.
-/

namespace Reame.Speculative

open Reame.Core MeasureTheory
open scoped ENNReal

namespace Call

section Sequential

variable {K : Type*} [Field K] [LinearOrder K] (call : Call K)

/-- The distribution that the target gives after a history. -/
def targetDistribution (history : List TokenId) : List K :=
  distributionOf call.lib call.gen (call.decoder.target.logits history) history

/-- One step of sequential sampling. -/
def sampledStep : Progress × Rng K → (Progress × Rng K) ⊕ (Exit × Progress)
  | (p, rng) =>
      if p.emitted < call.maxTokens ∧ p.history.length < call.nCtx then
        let (r, rng) := rng.next
        match call.deliver (drawLoop 0 0 r (call.targetDistribution p.history) : ℕ) p with
        | .inl p => .inl (p, rng)
        | .inr out => .inr out
      else .inr (.returned, p)

/-- Sequential sampling of a text, with the sampler's generator; `none` when the fuel runs out. -/
def sampledStream (fuel : ℕ) (prompt : List TokenId) : Option (Exit × Progress) :=
  Loop.run call.sampledStep fuel (⟨prompt, 0, []⟩, (Sampler.new call.lib call.gen).rng)

/-- What the sources of drafts have to satisfy: a draft model does not fail and proposes tokens of
the target, the tokenizer and the archive know tokens of the target only, and the lengths of
looked-up drafts stay in range. -/
structure DraftsFit (members : DecoderState) : Prop where
  faultFree : FaultFree call
  attached : call.modelMode = true → members.speculativeActive = true → call.decoder.draft.isSome
  vocab : call.modelMode = true → ∀ backend ∈ call.decoder.draft,
    backend.vocabSize ≤ call.decoder.target.vocabSize
  tokenizes : call.modelMode = false → TokenizesInVocab call.decoder.target
  archive : call.modelMode = false → ∀ archive ∈ call.decoder.config.corpus,
    archive.AnswersIn call.decoder.target.InVocab
  lengths : call.DraftLengthsInRange members

variable {call}

/-- Delivering a token makes the history longer. -/
theorem length_of_deliver {t : TokenId} {p p' : Progress} (hdeliver : call.deliver t p = .inl p') :
    p'.history = p.history ++ [t] := by
  rw [deliver] at hdeliver
  split at hdeliver
  · cases hdeliver
  · split at hdeliver
    · cases hdeliver
    · cases hdeliver
    · cases hdeliver
      rfl

end Sequential

variable (call : Call ℝ)

/-! ## Sequential sampling as a program -/

theorem isDistribution_target (history : List TokenId) :
    IsDistribution (call.targetDistribution history) :=
  isDistribution_distributionOf _ _ (call.decoder.target.logits_ne_nil _) _

theorem length_targetDistribution (history : List TokenId) :
    (call.targetDistribution history).length = call.decoder.target.vocabSize := by
  rw [targetDistribution, length_distributionOf, call.decoder.target.length_logits]

/-- Sequential sampling. -/
noncomputable def sampledDrawing : ℕ → Progress → Drawing ℕ (Option (Exit × Progress))
  | 0, _ => .done none
  | fuel + 1, p =>
      if p.emitted < call.maxTokens ∧ p.history.length < call.nCtx then
        (tokenDrawing call.samplerSeed (call.targetDistribution p.history)).bind fun t : ℕ =>
          match call.deliver (t : ℤ) p with
          | .inl p => sampledDrawing fuel p
          | .inr out => .done (some out)
      else .done (some (.returned, p))

theorem run_sampledDrawing (ω : Drawing.Variates ℕ) (positions : ℕ → ℕ) (fuel : ℕ) (p : Progress) :
    Loop.run (call.seeded ω).sampledStep fuel (p, rngAt call.samplerSeed ω positions) =
      ((call.sampledDrawing fuel p).run ω positions).1 := by
  induction fuel generalizing positions p with
  | zero => rfl
  | succ fuel ih =>
      have htarget : (call.seeded ω).targetDistribution p.history =
          call.targetDistribution p.history := by
        rw [targetDistribution, targetDistribution]
        exact congrFun (congrFun (congrFun (distributionOf_seeded call.lib ω) call.gen) _) _
      rw [Loop.run, sampledDrawing, sampledStep, seeded_maxTokens, seeded_nCtx]
      by_cases hrunning : p.emitted < call.maxTokens ∧ p.history.length < call.nCtx
      · rw [if_pos hrunning, if_pos hrunning, next_rngAt, htarget, Drawing.run_bind,
          run_tokenDrawing]
        dsimp only
        have hdeliver : (call.seeded ω).deliver = call.deliver := rfl
        rw [hdeliver]
        cases call.deliver (drawLoop 0 0 (ω (call.samplerSeed, positions call.samplerSeed))
            (call.targetDistribution p.history) : ℕ) p with
        | inl p' => exact ih _ _
        | inr out => rfl
      · rw [if_neg hrunning, if_neg hrunning]
        rfl

/-! ## The law -/

section Law

variable (value : Exit × Progress → ℝ≥0∞)

/-- The value of a run that may have run out of fuel. -/
def valueOf : Option (Exit × Progress) → ℝ≥0∞
  | none => 0
  | some out => value out

/-- The mean value of sequential sampling. -/
noncomputable def law (p : Progress) : ℝ≥0∞ :=
  (call.sampledDrawing (call.nCtx - p.history.length + 1) p).mean (valueOf value)

/-- The mean value after a delivery. -/
noncomputable def lawAfter : Progress ⊕ (Exit × Progress) → ℝ≥0∞
  | .inl p => call.law value p
  | .inr out => value out

theorem law_of_running {p : Progress}
    (hrunning : p.emitted < call.maxTokens ∧ p.history.length < call.nCtx) :
    call.law value p = ∑ x ∈ Finset.range (call.targetDistribution p.history).length,
      ENNReal.ofReal ((call.targetDistribution p.history).getD x 0) *
        call.lawAfter value (call.deliver (x : ℤ) p) := by
  obtain ⟨room, hroom⟩ : ∃ room, call.nCtx - p.history.length = room + 1 :=
    ⟨call.nCtx - p.history.length - 1, by omega⟩
  rw [law, hroom, sampledDrawing, if_pos hrunning, Drawing.mean_bind,
    mean_tokenDrawing _ (call.isDistribution_target _)]
  refine Finset.sum_congr rfl fun x _ => congrArg _ ?_
  cases hdeliver : call.deliver (x : ℤ) p with
  | inl p' =>
      have hlength : call.nCtx - p'.history.length = room := by
        rw [length_of_deliver hdeliver, List.length_append, List.length_singleton]
        omega
      rw [lawAfter, law, hlength]
  | inr out => rfl

theorem law_of_stopped {p : Progress}
    (hstopped : ¬ (p.emitted < call.maxTokens ∧ p.history.length < call.nCtx)) :
    call.law value p = value (.returned, p) := by
  rw [law, sampledDrawing, if_neg hstopped]
  rfl

/-- Enough fuel gives the law. -/
theorem mean_sampledDrawing {fuel : ℕ} {p : Progress}
    (hfuel : call.nCtx - p.history.length < fuel) :
    (call.sampledDrawing fuel p).mean (valueOf value) = call.law value p := by
  induction fuel generalizing p with
  | zero => cases hfuel
  | succ fuel ih =>
      rw [sampledDrawing]
      split
      · rename_i hrunning
        rw [call.law_of_running value hrunning, Drawing.mean_bind,
          mean_tokenDrawing _ (call.isDistribution_target _)]
        refine Finset.sum_congr rfl fun x _ => congrArg _ ?_
        cases hdeliver : call.deliver (x : ℤ) p with
        | inl p' =>
            refine ih ?_
            rw [length_of_deliver hdeliver, List.length_append, List.length_singleton]
            omega
        | inr out => rfl
      · rename_i hstopped
        rw [call.law_of_stopped value hstopped]
        rfl

/-- The mean value of sequential sampling once some tokens have been emitted. -/
noncomputable def follow : List TokenId → Progress → ℝ≥0∞
  | [], p => call.law value p
  | t :: rest, p =>
      match call.deliver t p with
      | .inl p =>
          if p.emitted < call.maxTokens ∧ p.history.length < call.nCtx then follow rest p
          else call.law value p
      | .inr out => value out

/-- A mean of a constant. -/
theorem sum_target_mul (history : List TokenId) (c : ℝ≥0∞) :
    ∑ x ∈ Finset.range (call.targetDistribution history).length,
      ENNReal.ofReal ((call.targetDistribution history).getD x 0) * c = c := by
  have htarget := call.isDistribution_target history
  rw [← Finset.sum_mul, ← ENNReal.ofReal_sum_of_nonneg fun x _ => htarget.getD_nonneg x,
    ← sum_eq_sum_range le_rfl, htarget.sum_one, ENNReal.ofReal_one, one_mul]

/-- While the loop runs, one more token drawn from the target keeps the mean. -/
theorem martingale_follow {p : Progress}
    (hrunning : p.emitted < call.maxTokens ∧ p.history.length < call.nCtx) :
    Martingale (fun w => call.targetDistribution (p.history ++ w))
      (fun w => call.follow value w p) := by
  intro w
  dsimp only
  induction w generalizing p with
  | nil =>
      rw [List.append_nil, follow, call.law_of_running value hrunning]
      refine Finset.sum_congr rfl fun x _ => congrArg _ ?_
      rw [List.nil_append, follow]
      cases call.deliver (x : ℤ) p with
      | inl p' =>
          dsimp only
          split
          · rfl
          · rfl
      | inr out => rfl
  | cons t w ih =>
      simp only [List.cons_append, follow]
      cases hdeliver : call.deliver t p with
      | inl p' =>
          dsimp only
          split
          · rename_i hrunning'
            rw [ih hrunning', length_of_deliver hdeliver, List.append_assoc, List.singleton_append]
          · exact (call.sum_target_mul _ _).symm
      | inr out => exact (call.sum_target_mul _ _).symm

/-! ## Emission -/

/-- The mean value after an iteration. -/
noncomputable def lawOut : LoopState ℝ ⊕ (Exit × LoopState ℝ) → ℝ≥0∞
  | .inl s => call.law value s.progress
  | .inr (e, s) => value (e, s.progress)

theorem lawOut_emit (tokens : List TokenId) (s : LoopState ℝ) :
    call.lawOut value (call.emit tokens s) = call.follow value tokens s.progress := by
  induction tokens generalizing s with
  | nil => rfl
  | cons t rest ih =>
      rw [follow]
      rcases emit_cons call t rest s with ⟨e, s', hemit, hdeliver⟩ | ⟨hdeliver, hemit⟩
      · rw [hemit, hdeliver]
        rfl
      · rw [hemit, hdeliver]
        dsimp only
        by_cases hrunning : call.Running (push s t)
        · rw [if_pos hrunning, if_pos (show (push s t).progress.emitted < call.maxTokens ∧
            (push s t).progress.history.length < call.nCtx from hrunning)]
          exact ih _
        · rw [if_neg hrunning, if_neg (show ¬ ((push s t).progress.emitted < call.maxTokens ∧
            (push s t).progress.history.length < call.nCtx) from hrunning)]
          rfl

/-- The mean value after a verification. -/
noncomputable def lawVerdict (p : Progress) : Except Fault VerificationResult → ℝ≥0∞
  | .error fault => value (.threw fault, p)
  | .ok result => call.follow value result.newTokens p

/-- What follows a verification is the emission of its tokens. -/
theorem lawOut_conclude (hfree : FaultFree call) (draft : DraftResult ℝ) (s : LoopState ℝ)
    (verdict : Except Fault VerificationResult) :
    call.lawOut value (call.conclude draft s verdict) =
      call.lawVerdict value s.progress verdict := by
  cases verdict with
  | error fault => rfl
  | ok result =>
      simp only [conclude]
      rcases syncKv_spec call draft.tokens.length result (countVerified
        { s with targetKv := s.targetKv ++ s.cur :: draft.tokens.dropLast }
        draft.tokens.length result) with ⟨_, -, -, hmodel, backend, hbackend, hfails⟩ | ⟨hsynced, -⟩
      · rw [hfree backend hbackend] at hfails
        cases hfails
      · rw [hsynced]
        dsimp only
        have hemitted : ∀ s' : LoopState ℝ, call.lawOut value
            (call.emitVerified draft.tokens.length result s') =
              call.lawOut value (call.emit result.newTokens s') := by
          intro s'
          rw [emitVerified]
          cases call.emit result.newTokens s' with
          | inl after => rfl
          | inr out => rfl
        rw [hemitted, lawOut_emit]
        rfl

end Law

/-! ## One iteration -/

/-- What survives every iteration: a synchronised target and, when looking up, a history of the
vocabulary and a draft length in range. -/
structure Live (s : LoopState ℝ) : Prop extends Going call s where
  lookup : call.modelMode = false → (∀ t ∈ s.history, call.decoder.target.InVocab t) ∧
    0 ≤ s.self.currentDraftTokens ∧ s.self.currentDraftTokens ≤ 2 ^ 31 - 3

variable {call} {members : DecoderState}

theorem Live.next (hfit : call.DraftsFit members) {s s' : LoopState ℝ} (hlive : Live call s)
    (hstep : call.step s = .inl s') : Live call s' := by
  refine ⟨hlive.toGoing.next hstep, fun hmode => ?_⟩
  obtain ⟨hvocab, hcurrent⟩ := hlive.lookup hmode
  have hhistory := step_history_inVocab hmode hlive.sync hvocab
  have hadapts := step_adapts hlive.attached hlive.sync
  rw [hstep] at hhistory hadapts
  refine ⟨hhistory, ?_⟩
  rcases hfit.lengths with hmodel | ⟨hmin, hmin', hmax, hmax', -⟩
  · rw [hmode] at hmodel
    cases hmodel
  · rcases hadapts.draftLength with hsame | ⟨self, accepted, drafted, hself, hafter⟩
    · rw [← hsame] at hcurrent
      exact hcurrent
    · rw [← hself] at hcurrent
      have hadapted := adaptDraftLength_mem le_rfl ⟨hmin, hmin'⟩ ⟨hmax, hmax'⟩ hcurrent accepted
        drafted
      rw [← hafter] at hadapted
      exact hadapted

/-- A lookup asks for a length that is not negative. -/
theorem Live.nDraft_nonneg (hfit : call.DraftsFit members) {s : LoopState ℝ} (hlive : Live call s)
    (hmode : call.modelMode = false) (hrunning : call.Running s) : 0 ≤ call.nDraft s := by
  obtain ⟨-, hcurrent, -⟩ := hlive.lookup hmode
  rcases hfit.lengths with hmodel | ⟨-, -, -, -, -, -, hctx⟩
  · rw [hmode] at hmodel
    cases hmodel
  · have hlong : 0 < s.history.length := by
      rw [← (hlive.sync.kv hrunning).1]
      simp
    have hroom := hrunning.2
    rw [nDraft, toInt32_of_mem (by omega) (by omega)]
    exact le_min hcurrent (by omega)

/-- Looked-up tokens are tokens of the target. -/
theorem Live.lookup_inVocab (hfit : call.DraftsFit members) {s : LoopState ℝ} (hlive : Live call s)
    (hmode : call.modelMode = false) {tokens : List TokenId} {n : ℤ}
    (hlookup : call.lookupDraft s.history n = .ok tokens) :
    ∀ t ∈ tokens, call.decoder.target.InVocab t := by
  obtain ⟨hvocab, -⟩ := hlive.lookup hmode
  cases hcorpus : call.decoder.config.corpus with
  | none => exact lookupDraft_inVocab_of_quiet hcorpus (hfit.tokenizes hmode) hvocab hlookup
  | some archive =>
      exact lookupDraft_inVocab hcorpus (hfit.archive hmode archive (by rw [hcorpus]; rfl))
        (hfit.tokenizes hmode) hvocab hlookup

section Step

variable (value : Exit × Progress → ℝ≥0∞) {s : LoopState ℝ}

/-- A verification in sync compares with the target's distributions after the history. -/
theorem mean_verifyPhase (hfree : FaultFree call) (hsync : s.targetKv ++ [s.cur] = s.history)
    (draft : DraftResult ℝ) :
    (call.verifyPhaseDrawing draft s).mean (call.lawOut value) =
      (verifyDrawing call.verifierSeed (fun w => .ok (call.targetDistribution (s.history ++ w)))
        draft.tokens draft.probs []).mean (call.lawVerdict value s.progress) := by
  have hfamily : ∀ w, distributionAfter call.lib call.gen call.decoder.target s.targetKv s.history
      s.cur w = call.targetDistribution (s.history ++ w) := fun w => by
    rw [distributionAfter, targetDistribution, List.append_cons, hsync]
  simp only [verifyPhaseDrawing, hfamily]
  rw [Drawing.mean_map]
  congr 1
  funext verdict
  exact lawOut_conclude call value hfree draft s verdict

/-- Emitting a token drawn from the target keeps the law. -/
theorem law_eq_sum_follow {p : Progress}
    (hrunning : p.emitted < call.maxTokens ∧ p.history.length < call.nCtx) :
    call.law value p = ∑ x ∈ Finset.range (call.targetDistribution p.history).length,
      ENNReal.ofReal ((call.targetDistribution p.history).getD x 0) *
        call.follow value [(x : ℤ)] p := by
  have hmartingale := call.martingale_follow value hrunning []
  dsimp only at hmartingale
  rw [List.append_nil] at hmartingale
  exact hmartingale

/-- Greedy decoding emits the only token that the target draws. -/
theorem law_eq_follow_greedy (hgreedy : call.gen.temperature ≤ 0) {p : Progress}
    (hrunning : p.emitted < call.maxTokens ∧ p.history.length < call.nCtx) :
    call.law value p =
      call.follow value [(maxElement (call.targetDistribution p.history) : ℤ)] p := by
  have hne : penalize call.gen (call.decoder.target.logits p.history) p.history ≠ [] := by
    rw [← List.length_pos_iff, length_penalize]
    exact List.length_pos_iff.mpr (call.decoder.target.logits_ne_nil _)
  have hpeak := maxElement_lt hne
  rw [call.law_eq_sum_follow value hrunning, targetDistribution, distributionOf, if_pos hgreedy,
    length_oneHot, maxElement_oneHot hpeak, Finset.sum_eq_single _ ?_ ?_, getD_oneHot hpeak,
    if_pos rfl, ENNReal.ofReal_one, one_mul]
  · intro x _ hx
    rw [getD_oneHot hpeak, if_neg hx, ENNReal.ofReal_zero, zero_mul]
  · exact fun hout => absurd (Finset.mem_range.mpr hpeak) hout

/-- A plain iteration keeps the law. -/
theorem mean_plainDrawing (hsync : s.targetKv ++ [s.cur] = s.history) (hrunning : call.Running s) :
    (call.plainDrawing s).mean (call.lawOut value) = call.law value s.progress := by
  have hprobs : distributionOf call.lib call.gen
      (call.decoder.target.logits (s.targetKv ++ [s.cur])) s.history =
        call.targetDistribution s.history := by
    rw [hsync, targetDistribution]
  rw [plainDrawing]
  simp only [hprobs]
  split
  · rename_i hgreedy
    rw [call.law_eq_follow_greedy value hgreedy (p := s.progress) hrunning]
    exact lawOut_emit call value _ _
  · rw [Drawing.mean_map, mean_tokenDrawing _ (call.isDistribution_target _),
      call.law_eq_sum_follow value (p := s.progress) hrunning]
    refine Finset.sum_congr rfl fun x _ => congrArg _ ?_
    exact lawOut_emit call value _ _

/-- Verifying what a draft model proposes keeps the law. -/
theorem mean_modelDraft (hfit : call.DraftsFit members) (hlive : Live call s)
    (hrunning : call.Running s) (hmode : call.modelMode = true)
    (hactive : s.self.speculativeActive = true) :
    ((call.draftDrawing s).bind fun
      | .retry s => .done (.inl s)
      | .threw fault s => .done (.inr (.threw fault, s))
      | .proposed draft s => call.verifyPhaseDrawing draft s).mean (call.lawOut value) =
      call.law value s.progress := by
  obtain ⟨hsync, -⟩ := hlive.sync.kv hrunning
  obtain ⟨backend, hbackend⟩ := Option.isSome_iff_exists.mp (hlive.attached hmode hactive)
  have hjudge : Judges (call.lawVerdict value s.progress)
      (fun w => call.follow value w s.progress) := fun _ => rfl
  have hkept : ((rolloutDrawing call.samplerSeed call.lib call.gen backend.toLlamaBackend
      (call.rolloutLength s) s.cur s.history s.draftState).mean fun out =>
        (verifyDrawing call.verifierSeed (fun w => .ok (call.targetDistribution (s.history ++ w)))
          (out.1.map Prod.fst) (out.1.map Prod.snd) []).mean (call.lawVerdict value s.progress)) =
      call.follow value [] s.progress :=
    mean_rollout_verify call.verifierSeed (fun w => call.isDistribution_target (s.history ++ w))
      (call.martingale_follow value (p := s.progress) hrunning) hjudge call.samplerSeed
      (fun w => call.length_targetDistribution (s.history ++ w))
      (hfit.vocab hmode backend (by rw [hbackend]; rfl))
      (fun kv recent => isDistribution_distributionOf call.lib call.gen (backend.logits_ne_nil kv)
        recent) _ _ _ _ _
  simp only [draftDrawing, if_pos hmode, hbackend]
  rw [Drawing.mean_bind, Drawing.mean_map]
  refine Eq.trans ?_ hkept
  congr 1
  funext out
  by_cases hempty : out.1.map Prod.fst = []
  · rw [if_pos hempty, hempty]
    rfl
  · rw [if_neg hempty]
    exact mean_verifyPhase value (s := { s with draftState := out.2 }) hfit.faultFree hsync _

/-- Verifying what a lookup proposes keeps the law. -/
theorem mean_lookupDraft (hfit : call.DraftsFit members) (hlive : Live call s)
    (hrunning : call.Running s) (hmode : call.modelMode = false) :
    ((call.draftDrawing s).bind fun
      | .retry s => .done (.inl s)
      | .threw fault s => .done (.inr (.threw fault, s))
      | .proposed draft s => call.verifyPhaseDrawing draft s).mean (call.lawOut value) =
      call.law value s.progress := by
  obtain ⟨hsync, -⟩ := hlive.sync.kv hrunning
  obtain ⟨tokens, htokens⟩ := lookupDraft_ok call s.history
    (hlive.nDraft_nonneg hfit hmode hrunning)
  obtain ⟨probs, hprobs⟩ := oneHotProbs_ok (K := ℝ) (hlive.lookup_inVocab hfit hmode htokens)
  have hmodel : ¬ call.modelMode = true := by
    rw [hmode]
    exact Bool.false_ne_true
  simp only [draftDrawing, if_neg hmodel, lookupDraftPhase, htokens, hprobs, Drawing.bind]
  by_cases hempty : tokens = []
  · rw [if_pos hempty]
    rfl
  · rw [if_neg hempty]
    have hjudge : Judges (call.lawVerdict value s.progress)
        (fun w => call.follow value w s.progress) := fun _ => rfl
    calc (call.verifyPhaseDrawing ⟨tokens, probs⟩ s).mean (call.lawOut value)
        = (verifyDrawing call.verifierSeed (fun w => .ok (call.targetDistribution (s.history ++ w)))
            tokens probs []).mean (call.lawVerdict value s.progress) :=
          mean_verifyPhase value hfit.faultFree hsync _
      _ = call.follow value [] s.progress :=
          mean_verify_oneHot call.verifierSeed
            (fun w => call.isDistribution_target (s.history ++ w))
            (call.martingale_follow value (p := s.progress) hrunning) hjudge
            (fun w => call.length_targetDistribution (s.history ++ w))
            (oneHotProbs_greedy hprobs) []

/-- An iteration keeps the law. -/
theorem mean_stepDrawing (hfit : call.DraftsFit members) (hlive : Live call s) :
    (call.stepDrawing s).mean (call.lawOut value) = call.law value s.progress := by
  rw [stepDrawing]
  by_cases hrunning : call.Running s
  · rw [if_pos hrunning]
    dsimp only
    rcases drafting_or_quiet call s with hdrafting | hquiet
    · rw [hdrafting.guarded, if_pos ⟨hdrafting.active, by simp [hdrafting.skip]⟩]
      cases hmode : call.modelMode with
      | true => exact mean_modelDraft value hfit hlive hrunning hmode hdrafting.active
      | false => exact mean_lookupDraft value hfit hlive hrunning hmode
    · obtain ⟨hsame, -⟩ := vocabGuard_untouched call s
      have hsync : (call.vocabGuard s).targetKv ++ [(call.vocabGuard s).cur] =
          (call.vocabGuard s).history := by
        rw [hsame.targetKv, hsame.cur, hsame.history]
        exact (hlive.sync.kv hrunning).1
      rw [if_neg hquiet, mean_plainDrawing value hsync (hsame.running.mpr hrunning), hsame.progress]
  · rw [if_neg hrunning]
    exact (call.law_of_stopped value (p := s.progress) hrunning).symm

end Step

/-! ## Whole generations -/

/-- The generators do not matter to what survives an iteration. -/
theorem live_seat {ω : Drawing.Variates ℕ} {positions : ℕ → ℕ} {s : LoopState ℝ} :
    Live (call.seeded ω) (call.seat ω positions s) ↔ Live call s := by
  constructor
  · rintro ⟨⟨hattached, hcur, hkv⟩, hlookup⟩
    exact ⟨⟨hattached, hcur, hkv⟩, hlookup⟩
  · rintro ⟨⟨hattached, hcur, hkv⟩, hlookup⟩
    exact ⟨⟨hattached, hcur, hkv⟩, hlookup⟩

theorem DraftsFit.seeded (hfit : call.DraftsFit members) (ω : Drawing.Variates ℕ) :
    (call.seeded ω).DraftsFit members :=
  ⟨hfit.faultFree, hfit.attached, hfit.vocab, hfit.tokenizes, hfit.archive, hfit.lengths⟩

section Whole

variable (value : Exit × Progress → ℝ≥0∞)

/-- The value of a generation that may have run out of fuel. -/
noncomputable def valueOut (out : Option (Exit × LoopState ℝ)) : ℝ≥0∞ :=
  valueOf value (out.map fun left => (left.1, left.2.progress))

/-- The generation loop keeps the law. -/
theorem mean_loopDrawing (hfit : call.DraftsFit members) {fuel : ℕ} {s : LoopState ℝ}
    (hlive : Live call s) (hfuel : call.remaining s < fuel) :
    (call.loopDrawing fuel s).mean (valueOut value) = call.law value s.progress := by
  induction fuel generalizing s with
  | zero => cases hfuel
  | succ fuel ih =>
      rw [loopDrawing, Drawing.mean_bind, ← mean_stepDrawing value hfit hlive]
      refine Drawing.mean_congr fun ω _ => ?_
      have hstep := run_stepDrawing call ω 0 hfit.faultFree s
      dsimp only at hstep
      cases hout : ((call.stepDrawing s).run ω 0).1 with
      | inr left => rfl
      | inl after =>
          rw [hout, seatOut] at hstep
          have hseated : Live (call.seeded ω) (call.seat ω 0 s) := live_seat.mpr hlive
          have hfalls := step_falls hseated.attached hseated.sync hstep
          refine ih (live_seat.mp (hseated.next (hfit.seeded ω) hstep)) ?_
          have hsame : ∀ (positions : ℕ → ℕ) (s : LoopState ℝ),
              (call.seeded ω).remaining (call.seat ω positions s) = call.remaining s :=
            fun _ _ => rfl
          rw [hsame, hsame] at hfalls
          omega

/-- On variates of the unit interval a generation starts at the start of its streams. -/
theorem initial_seeded {ω : Drawing.Variates ℕ} (hω : ∀ i, ω i ∈ Set.Ico (0 : ℝ) 1)
    (members : DecoderState) (draftState : DraftState) (prompt : List TokenId) :
    (call.seeded ω).initial members draftState prompt =
      call.seat ω 0 (call.initial members draftState prompt) := by
  have hstream : ∀ seed, (call.lib.seeded ω).mt19937 seed = fun i => ω (seed, i) := fun seed =>
    funext fun i => Int.fract_eq_self.mpr (hω (seed, i))
  have hprefill : (call.seeded ω).draftPrefill = call.draftPrefill := rfl
  rw [initial, hprefill]
  simp only [seat, initial, seeded, rngAt, Sampler.new, hstream]
  rfl

theorem Live.initial (hfit : call.DraftsFit members) {prompt : List TokenId} (hne : prompt ≠ [])
    (hprompt : call.modelMode = false → ∀ t ∈ prompt, call.decoder.target.InVocab t)
    (draftState : DraftState) : Live call (call.initial members draftState prompt) := by
  refine ⟨.initial hne draftState hfit.attached, fun hmode => ⟨hprompt hmode, ?_⟩⟩
  have hself : (call.initial members draftState prompt).self = members := by
    simp [Call.initial, draftPrefill, hmode]
  rw [hself]
  rcases hfit.lengths with hmodel | ⟨-, -, -, -, hcurrent, hcurrent', -⟩
  · rw [hmode] at hmodel
    cases hmodel
  · exact ⟨hcurrent, hcurrent'⟩

end Whole

/-- What the caller sees of a generation is one of the outcomes. -/
def Shows (outcomes : Set (List TokenId × Exit)) (result : Option StreamResult) : Prop :=
  ∃ seen ∈ result, (seen.delivered, seen.exit) ∈ outcomes

/-- What the caller sees of sequential sampling is one of the outcomes. -/
def Samples (outcomes : Set (List TokenId × Exit)) (result : Option (Exit × Progress)) : Prop :=
  ∃ out ∈ result, (out.2.delivered, out.1) ∈ outcomes

/-- A pair of models at temperature one. -/
noncomputable def warmCall : Call ℝ :=
  let call := pairCall .real 4 (Nat.succ_pos 2) Nat.two_pos fun _ => false
  { call with gen := { call.gen with temperature := 1 } }

theorem warmCall_fits : warmCall.DraftsFit ⟨1, true, {}⟩ := by
  refine ⟨?_, fun _ _ => rfl, ?_, fun hmode => ?_, fun hmode => ?_, .inl rfl⟩
  · rintro backend ⟨⟩
    exact fun _ => rfl
  · rintro - backend ⟨⟩
    exact Nat.le_succ 2
  · cases hmode
  · cases hmode

section Outcomes

variable {prompt : List TokenId} (outcomes : Set (List TokenId × Exit))

@[simp] theorem shows_some (result : StreamResult) :
    Shows outcomes (some result) ↔ (result.delivered, result.exit) ∈ outcomes :=
  ⟨fun ⟨_, hsome, hmem⟩ => Option.mem_some_iff.mp hsome ▸ hmem, fun hmem => ⟨_, rfl, hmem⟩⟩

@[simp] theorem samples_some (out : Exit × Progress) :
    Samples outcomes (some out) ↔ (out.2.delivered, out.1) ∈ outcomes :=
  ⟨fun ⟨_, hsome, hmem⟩ => Option.mem_some_iff.mp hsome ▸ hmem, fun hmem => ⟨_, rfl, hmem⟩⟩

@[simp] theorem not_shows_none : ¬ Shows outcomes none := by
  rintro ⟨_, ⟨⟩, _⟩

@[simp] theorem not_samples_none : ¬ Samples outcomes none := by
  rintro ⟨_, ⟨⟩, _⟩

open Classical in
/-- The value that tells the outcomes apart. -/
noncomputable def indicator (out : Exit × Progress) : ℝ≥0∞ :=
  if Samples outcomes (some out) then 1 else 0

open Classical in
theorem valueOf_indicator (out : Option (Exit × Progress)) :
    valueOf (indicator outcomes) out = if Samples outcomes out then 1 else 0 := by
  cases out with
  | none => rw [valueOf, if_neg (not_samples_none outcomes)]
  | some out => rfl

/-- The law of a generation. -/
theorem measure_shows (hfit : call.DraftsFit members) (hne : prompt ≠ [])
    (hlength : prompt.length ≤ call.nCtx)
    (hprompt : call.modelMode = false → ∀ t ∈ prompt, call.decoder.target.InVocab t)
    (draftState : DraftState) {fuel : ℕ} (hfuel : 2 * call.nCtx ≤ fuel) :
    uniformStreams (ℕ × ℕ)
        {ω | Shows outcomes ((call.seeded ω).generateStream fuel members draftState prompt)} =
      call.law (indicator outcomes) ⟨prompt, 0, []⟩ := by
  let first := call.initial members draftState prompt
  let sampled := fun out : Option (Exit × LoopState ℝ) =>
    Samples outcomes (out.map fun left => (left.1, left.2.progress))
  calc uniformStreams (ℕ × ℕ)
        {ω | Shows outcomes ((call.seeded ω).generateStream fuel members draftState prompt)}
      = uniformStreams (ℕ × ℕ) {ω | sampled ((call.loopDrawing fuel first).run ω 0).1} := by
        refine measure_congr ?_
        filter_upwards [ae_mem_unit (ι := ℕ × ℕ)] with ω hω
        have hrun := run_loopDrawing call ω 0 hfit.faultFree fuel first
        have hcheck : (call.seeded ω).checkPrompt prompt = .ok () :=
          checkPrompt_ok_iff.mpr ⟨hne, hlength⟩
        dsimp only at hrun
        refine propext ?_
        change Shows outcomes _ ↔ sampled _
        rw [generateStream, hcheck, initial_seeded hω, hrun]
        cases ((call.loopDrawing fuel first).run ω 0).1 with
        | none => exact iff_of_false (not_shows_none outcomes) (not_samples_none outcomes)
        | some left =>
            exact (shows_some outcomes _).trans
              (samples_some outcomes (left.1, left.2.progress)).symm
    _ = (call.loopDrawing fuel first).mean (valueOut (indicator outcomes)) := by
        refine (Drawing.measure_run sampled 0 _).trans ?_
        congr 1
        funext out
        exact (valueOf_indicator outcomes _).symm
    _ = call.law (indicator outcomes) ⟨prompt, 0, []⟩ := by
        refine mean_loopDrawing _ hfit (Live.initial hfit hne hprompt draftState) ?_
        have hpositive := List.length_pos_iff.mpr hne
        have hhistory : first.history = prompt := rfl
        rw [remaining, hhistory]
        split <;> omega

variable (call) in
/-- The law of sequential sampling. -/
theorem measure_samples {fuel : ℕ} (hfuel : call.nCtx - prompt.length < fuel) :
    uniformStreams (ℕ × ℕ) {ω | Samples outcomes ((call.seeded ω).sampledStream fuel prompt)} =
      call.law (indicator outcomes) ⟨prompt, 0, []⟩ := by
  calc uniformStreams (ℕ × ℕ) {ω | Samples outcomes ((call.seeded ω).sampledStream fuel prompt)}
      = uniformStreams (ℕ × ℕ)
          {ω | Samples outcomes ((call.sampledDrawing fuel ⟨prompt, 0, []⟩).run ω 0).1} := by
        refine measure_congr ?_
        filter_upwards [ae_mem_unit (ι := ℕ × ℕ)] with ω hω
        have hstream : (call.lib.seeded ω).mt19937 call.samplerSeed =
            fun i => ω (call.samplerSeed, i) :=
          funext fun i => Int.fract_eq_self.mpr (hω (call.samplerSeed, i))
        have hstart : (Sampler.new (call.seeded ω).lib call.gen).rng = rngAt call.samplerSeed ω 0 :=
          congrArg (Rng.mk · 0) hstream
        refine propext ?_
        change Samples outcomes _ ↔ Samples outcomes _
        rw [sampledStream, seeded_gen, hstart, run_sampledDrawing]
    _ = (call.sampledDrawing fuel ⟨prompt, 0, []⟩).mean (valueOf (indicator outcomes)) := by
        refine (Drawing.measure_run (Samples outcomes) 0 _).trans ?_
        congr 1
        funext out
        exact (valueOf_indicator outcomes _).symm
    _ = call.law (indicator outcomes) ⟨prompt, 0, []⟩ := mean_sampledDrawing call _ hfuel

/-- At any temperature, and whatever the state of the decoder, the text of a generation and the way
it ends have the law of sequential sampling from the target. -/
theorem speculation_keeps_law (hfit : call.DraftsFit members) (hne : prompt ≠ [])
    (hlength : prompt.length ≤ call.nCtx)
    (hprompt : call.modelMode = false → ∀ t ∈ prompt, call.decoder.target.InVocab t)
    (draftState : DraftState) {fuel : ℕ} (hfuel : 2 * call.nCtx ≤ fuel) :
    uniformStreams (ℕ × ℕ)
        {ω | Shows outcomes ((call.seeded ω).generateStream fuel members draftState prompt)} =
      uniformStreams (ℕ × ℕ) {ω | Samples outcomes ((call.seeded ω).sampledStream fuel prompt)} := by
  have hpositive := List.length_pos_iff.mpr hne
  rw [measure_shows outcomes hfit hne hlength hprompt draftState hfuel,
    measure_samples call outcomes (by omega)]

/-- A warm target over three tokens, a draft model that knows two of them, and a text of two
tokens. -/
theorem speculation_keeps_law_warm : uniformStreams (ℕ × ℕ)
      {ω | Shows {([1, 0], .returned)} ((warmCall.seeded ω).generateStream 8 ⟨1, true, {}⟩ ⟨[], 0⟩
        [0])} =
    uniformStreams (ℕ × ℕ)
      {ω | Samples {([1, 0], .returned)} ((warmCall.seeded ω).sampledStream 8 [0])} := by
  have hroom : ([0] : List TokenId).length ≤ warmCall.nCtx := Nat.succ_le_succ (Nat.zero_le 3)
  exact speculation_keeps_law {([1, 0], .returned)} warmCall_fits (List.cons_ne_nil _ _) hroom
    (fun hmode => absurd hmode.symm Bool.false_ne_true) ⟨[], 0⟩ le_rfl

end Outcomes

end Call

end Reame.Speculative
