import Mathlib.Analysis.SpecialFunctions.Exp
import Reame.Core.Nucleus
import Reame.Speculative.DrawnDrafts
import Reame.Speculative.KvSync

/-!
# A generation as a program that draws

A call draws from two generators, the sampler's and the verifier's; a seed stands for a generator,
and `seeded` has every seed produce a stream of its own.  `stepDrawing` is an iteration of the
generation loop and `loopDrawing` the loop, as programs that draw.

Between two draws both generators are somewhere in their streams (`seat`), and nothing but the
draws depends on where.  So an iteration on the streams is a run of the program
(`run_stepDrawing`), and the loop is (`run_loopDrawing`), with a draft model that does not fail.
-/

namespace Reame.Core

open MeasureTheory

theorem pairwise_mergeSort (key : ℕ → ℝ) (order : List ℕ) :
    (order.mergeSort fun a b => key b ≤ key a).Pairwise fun a b => key b ≤ key a := by
  have hsorted : (order.mergeSort fun a b => key b ≤ key a).Pairwise
      fun a b => decide (key b ≤ key a) = true := List.pairwise_mergeSort
    (fun a b c hab hbc => by simpa using le_trans (by simpa using hbc) (by simpa using hab))
    (fun a b => by simpa using le_total (key b) (key a)) order
  exact hsorted.imp of_decide_eq_true

/-- A library over the reals, with a merge sort. -/
noncomputable def StdLib.real : StdLib ℝ where
  exp := Real.exp
  nthElement key _ order := order.mergeSort fun a b => key b ≤ key a
  sort key order := order.mergeSort fun a b => key b ≤ key a
  mt19937 _ _ := 0
  exp_pos := Real.exp_pos
  nthElement_perm _ _ order := order.mergeSort_perm _
  nthElement_split key k order a ha b hb := by
    have hsorted := pairwise_mergeSort key order
    rw [← List.take_append_drop k (order.mergeSort _), List.pairwise_append] at hsorted
    exact hsorted.2.2 a ha b hb
  sort_perm _ order := order.mergeSort_perm _
  sort_sorted key order := pairwise_mergeSort key order
  mt19937_mem _ _ := ⟨le_rfl, one_pos⟩

/-- The standard library, with the variates of every seed as given. -/
noncomputable def StdLib.seeded (lib : StdLib ℝ) (ω : Drawing.Variates ℕ) : StdLib ℝ :=
  { lib with
    mt19937 := fun seed i => Int.fract (ω (seed, i))
    mt19937_mem := fun _ _ => ⟨Int.fract_nonneg _, Int.fract_lt_one _⟩ }

section Seeded

variable (lib : StdLib ℝ) (ω : Drawing.Variates ℕ)

theorem widen_seeded (probs : List ℝ) (topP : ℝ) (order : List ℕ)
    (k : {k : ℕ // 0 < k ∧ k ≤ probs.length}) :
    widen (lib.seeded ω) probs topP order k = widen lib probs topP order k :=
  (exits_widen (lib.seeded ω) probs topP order k).unique (exits_widen lib probs topP order k)

/-- A distribution does not depend on the generators. -/
@[simp] theorem distributionOf_seeded : distributionOf (lib.seeded ω) = distributionOf lib := by
  have hnucleus : nucleus (lib.seeded ω) = nucleus lib := by
    funext topP probs
    simp only [nucleus, widen_seeded]
  funext config logits recent
  rw [distributionOf, distributionOf, hnucleus]
  rfl

end Seeded

end Reame.Core

namespace Reame.Speculative

open Reame.Core MeasureTheory

theorem rolloutDrawing_seeded {γ : Type*} (g : γ) (lib : StdLib ℝ) (ω : Drawing.Variates ℕ)
    (config : GenerationConfig ℝ) (backend : LlamaBackend ℝ) (n : ℕ) (cur : TokenId)
    (history : List TokenId) (draft : DraftState) :
    rolloutDrawing g (lib.seeded ω) config backend n cur history draft =
      rolloutDrawing g lib config backend n cur history draft := by
  induction n generalizing cur history draft with
  | zero => rfl
  | succ n ih => simp only [rolloutDrawing, distributionOf_seeded, ih]

namespace Call

variable (call : Call ℝ) (ω : Drawing.Variates ℕ) (positions : ℕ → ℕ)

/-! ## Generators -/

/-- The call, with every seed producing the given variates. -/
noncomputable def seeded : Call ℝ := { call with lib := call.lib.seeded ω }

/-- The seed of the sampler. -/
abbrev samplerSeed : ℕ := seedWord call.gen.seed

/-- The seed of the verifier. -/
abbrev verifierSeed : ℕ := seedWord call.gen.seed ^^^ 0x9E3779B9

theorem verifierSeed_ne : call.verifierSeed ≠ call.samplerSeed := by
  intro hsame
  have hzero : (0x9E3779B9 : ℕ) = 0 := by
    calc 0x9E3779B9 = call.samplerSeed ^^^ call.verifierSeed := by
          rw [← Nat.xor_assoc, Nat.xor_self, Nat.zero_xor]
      _ = 0 := by rw [hsame, Nat.xor_self]
  cases hzero

/-- A state whose generators stand somewhere in their streams. -/
noncomputable def seat (s : LoopState ℝ) : LoopState ℝ :=
  { s with
    sampler := ⟨call.gen, rngAt call.samplerSeed ω positions⟩
    acceptRng := rngAt call.verifierSeed ω positions }

/-- The state in which an iteration goes on or ends, with its generators. -/
noncomputable def seatOut :
    LoopState ℝ ⊕ (Exit × LoopState ℝ) → LoopState ℝ ⊕ (Exit × LoopState ℝ)
  | .inl s => .inl (call.seat ω positions s)
  | .inr (e, s) => .inr (e, call.seat ω positions s)

/-- What drafting leads to, with the generators. -/
noncomputable def seatDrafted : Drafted ℝ → Drafted ℝ
  | .proposed draft s => .proposed draft (call.seat ω positions s)
  | .retry s => .retry (call.seat ω positions s)
  | .threw fault s => .threw fault (call.seat ω positions s)

/-! ## The parts of an iteration -/

/-- The drafting part of an iteration. -/
noncomputable def draftDrawing (s : LoopState ℝ) : Drawing ℕ (Drafted ℝ) :=
  if call.modelMode then
    match call.decoder.draft with
    | none => .done (.threw .outOfBounds s)
    | some backend =>
        (rolloutDrawing call.samplerSeed call.lib call.gen backend.toLlamaBackend
          (call.rolloutLength s) s.cur s.history s.draftState).map fun out =>
            let draft : DraftResult ℝ := ⟨out.1.map Prod.fst, out.1.map Prod.snd⟩
            let s := { s with draftState := out.2 }
            if draft.tokens = [] then .retry (deactivate s) else .proposed draft s
  else .done (call.lookupDraftPhase s)

/-- What follows a verification: synchronisation, emission and adaptation. -/
noncomputable def conclude (draft : DraftResult ℝ) (s : LoopState ℝ)
    (verdict : Except Fault VerificationResult) : LoopState ℝ ⊕ (Exit × LoopState ℝ) :=
  let s := { s with targetKv := s.targetKv ++ s.cur :: draft.tokens.dropLast }
  match verdict with
  | .error fault => .inr (.threw fault, s)
  | .ok result =>
      match call.syncKv draft.tokens.length result
          (countVerified s draft.tokens.length result) with
      | (.error fault, s) => .inr (.threw fault, s)
      | (.ok _, s) => call.emitVerified draft.tokens.length result s

/-- The verifying part of an iteration. -/
noncomputable def verifyPhaseDrawing (draft : DraftResult ℝ) (s : LoopState ℝ) :
    Drawing ℕ (LoopState ℝ ⊕ (Exit × LoopState ℝ)) :=
  (verifyDrawing call.verifierSeed (fun w => .ok (distributionAfter call.lib call.gen
    call.decoder.target s.targetKv s.history s.cur w)) draft.tokens draft.probs []).map
      (call.conclude draft s)

/-- Plain sequential decoding of one token; greedy decoding does not draw. -/
noncomputable def plainDrawing (s : LoopState ℝ) : Drawing ℕ (LoopState ℝ ⊕ (Exit × LoopState ℝ)) :=
  let kv := s.targetKv ++ [s.cur]
  let probs := distributionOf call.lib call.gen (call.decoder.target.logits kv) s.history
  let s := { s with lookupSkip := false, targetKv := kv, base := s.base + 1 }
  if call.gen.temperature ≤ 0 then .done (call.emit [(maxElement probs : ℤ)] s)
  else (tokenDrawing call.samplerSeed probs).map fun t : ℕ => call.emit [(t : ℤ)] s

/-- One iteration of the generation loop. -/
noncomputable def stepDrawing (s : LoopState ℝ) : Drawing ℕ (LoopState ℝ ⊕ (Exit × LoopState ℝ)) :=
  if call.Running s then
    let s := call.vocabGuard s
    if s.self.speculativeActive ∧ ¬ s.lookupSkip then
      (call.draftDrawing s).bind fun
        | .retry s => .done (.inl s)
        | .threw fault s => .done (.inr (.threw fault, s))
        | .proposed draft s => call.verifyPhaseDrawing draft s
    else call.plainDrawing s
  else .done (.inr (.returned, s))

/-- The generation loop. -/
noncomputable def loopDrawing : ℕ → LoopState ℝ → Drawing ℕ (Option (Exit × LoopState ℝ))
  | 0, _ => .done none
  | fuel + 1, s => (call.stepDrawing s).bind fun
      | .inl s => loopDrawing fuel s
      | .inr out => .done (some out)

/-! ## Where the generators stand -/

@[simp] theorem seeded_decoder : (call.seeded ω).decoder = call.decoder := rfl

@[simp] theorem seeded_gen : (call.seeded ω).gen = call.gen := rfl

@[simp] theorem seeded_callback : (call.seeded ω).callback = call.callback := rfl

@[simp] theorem seeded_maxTokens : (call.seeded ω).maxTokens = call.maxTokens := rfl

@[simp] theorem seeded_nCtx : (call.seeded ω).nCtx = call.nCtx := rfl

@[simp] theorem seeded_modelMode : (call.seeded ω).modelMode = call.modelMode := rfl

@[simp] theorem seat_history (s : LoopState ℝ) :
    (call.seat ω positions s).history = s.history := rfl

@[simp] theorem seat_emitted (s : LoopState ℝ) :
    (call.seat ω positions s).emitted = s.emitted := rfl

@[simp] theorem seat_delivered (s : LoopState ℝ) :
    (call.seat ω positions s).delivered = s.delivered := rfl

@[simp] theorem seat_self (s : LoopState ℝ) : (call.seat ω positions s).self = s.self := rfl

@[simp] theorem seat_lookupSkip (s : LoopState ℝ) :
    (call.seat ω positions s).lookupSkip = s.lookupSkip := rfl

theorem push_seat (s : LoopState ℝ) (t : TokenId) :
    push (call.seat ω positions s) t = call.seat ω positions (push s t) :=
  rfl

theorem emit_seat (tokens : List TokenId) (s : LoopState ℝ) :
    (call.seeded ω).emit tokens (call.seat ω positions s) =
      call.seatOut ω positions (call.emit tokens s) := by
  induction tokens generalizing s with
  | nil => rfl
  | cons t rest ih =>
      rw [emit, emit, seeded_decoder, seeded_callback, seeded_maxTokens, seeded_nCtx]
      by_cases heog : call.decoder.target.isEog t = true
      · rw [if_pos heog, if_pos heog]
        rfl
      · rw [if_neg heog, if_neg heog, seat_delivered]
        cases call.callback (s.delivered ++ [t]) with
        | throws => rfl
        | stop => rfl
        | keepGoing =>
            dsimp only
            rw [push_seat, ih, seat_emitted, seat_history]
            split
            · rfl
            · rfl

/-- What is proposed is not empty. -/
theorem proposed_ne_nil {call : Call ℝ} {draft : DraftResult ℝ} {s s' : LoopState ℝ}
    (hphase : call.draftPhase s = .proposed draft s') : draft.tokens ≠ [] := by
  rw [draftPhase] at hphase
  split at hphase
  · rw [modelDraftPhase] at hphase
    split at hphase
    · cases hphase
    · dsimp only at hphase
      split at hphase
      · cases hphase
      · split at hphase
        · cases hphase
        · cases hphase
          assumption
  · rw [lookupDraftPhase] at hphase
    split at hphase
    · cases hphase
    · split at hphase
      · cases hphase
      · split at hphase
        · cases hphase
        · cases hphase
          assumption

/-- The drafting part of an iteration on the streams. -/
theorem run_draftDrawing (hfree : FaultFree call) (s : LoopState ℝ) :
    let out := (call.draftDrawing s).run ω positions
    (call.seeded ω).draftPhase (call.seat ω positions s) = call.seatDrafted ω out.2 out.1 := by
  intro out
  rw [draftPhase, seeded_modelMode]
  by_cases hmode : call.modelMode = true
  · rw [if_pos hmode, modelDraftPhase, seeded_decoder]
    cases hbackend : call.decoder.draft with
    | none =>
        simp only [out, draftDrawing, if_pos hmode, hbackend]
        rfl
    | some backend =>
        have hrollout := run_rolloutDrawing call.samplerSeed ω (call.lib.seeded ω) call.gen
          (hfree backend hbackend) (call.rolloutLength s) positions s.cur s.history s.draftState {}
        have honly := (only_rolloutDrawing call.samplerSeed call.lib call.gen
          backend.toLlamaBackend (call.rolloutLength s) s.cur s.history s.draftState).run_other
          call.verifierSeed_ne ω positions
        rw [rolloutDrawing_seeded] at hrollout
        simp only [List.nil_append] at hrollout
        simp only [out, draftDrawing, if_pos hmode, hbackend, Drawing.run_map]
        generalize (rolloutDrawing call.samplerSeed call.lib call.gen backend.toLlamaBackend
          (call.rolloutLength s) s.cur s.history s.draftState).run ω positions = rolled
          at hrollout honly
        have hseat : { call.seat ω positions s with
            sampler := ⟨call.gen, rngAt call.samplerSeed ω rolled.2⟩, draftState := rolled.1.2 } =
            call.seat ω rolled.2 { s with draftState := rolled.1.2 } := by
          simp only [seat, rngAt, honly]
        have hgenerated : generateDraft (call.seeded ω).lib backend call.decoder.config.draftTokens
            (call.seat ω positions s).cur (call.seat ω positions s).history
            (call.seat ω positions s).sampler (call.seat ω positions s).draftState
            ((call.seeded ω).nDraft (call.seat ω positions s)) = _ := hrollout
        rw [hgenerated]
        dsimp only
        split
        · exact congrArg (fun s => Drafted.retry (deactivate s)) hseat
        · exact congrArg (Drafted.proposed _) hseat
  · have hlookup : (call.seeded ω).lookupDraft (call.seat ω positions s).history
        ((call.seeded ω).nDraft (call.seat ω positions s)) =
          call.lookupDraft s.history (call.nDraft s) := rfl
    simp only [if_neg hmode, out, draftDrawing, Drawing.run]
    rw [lookupDraftPhase, lookupDraftPhase, hlookup, seeded_decoder]
    cases call.lookupDraft s.history (call.nDraft s) with
    | error fault => rfl
    | ok tokens =>
        dsimp only
        cases oneHotProbs (K := ℝ) call.decoder.target.vocabSize tokens with
        | error fault => rfl
        | ok probs =>
            dsimp only
            split
            · rfl
            · rfl

theorem syncKv_seat (drafted : ℕ) (result : VerificationResult) (s : LoopState ℝ) :
    (call.seeded ω).syncKv drafted result (call.seat ω positions s) =
      ((call.syncKv drafted result s).1,
        call.seat ω positions (call.syncKv drafted result s).2) := by
  rw [syncKv, syncKv, seeded_modelMode, seeded_decoder]
  cases result.correctedToken with
  | none => rfl
  | some t =>
      cases call.modelMode with
      | false => rfl
      | true =>
          cases call.decoder.draft with
          | none => rfl
          | some backend =>
              obtain ⟨truncated, htruncated⟩ : ∃ truncated, backend.truncateTo s.draftState
                  (s.base + 1 + result.acceptedTokens.length) = truncated := ⟨_, rfl⟩
              simp only [seat, htruncated]
              cases truncated with
              | mk outcome draftState =>
                  cases outcome with
                  | error fault => rfl
                  | ok _ => rfl

theorem emitVerified_seat (drafted : ℕ) (result : VerificationResult) (s : LoopState ℝ) :
    (call.seeded ω).emitVerified drafted result (call.seat ω positions s) =
      call.seatOut ω positions (call.emitVerified drafted result s) := by
  rw [emitVerified, emitVerified, emit_seat]
  cases call.emit result.newTokens s with
  | inl after => rfl
  | inr out => rfl

/-- What follows a verification, on the streams. -/
theorem conclude_seat (draft : DraftResult ℝ) (s : LoopState ℝ)
    (verdict : Except Fault VerificationResult) :
    (call.seeded ω).conclude draft (call.seat ω positions s) verdict =
      call.seatOut ω positions (call.conclude draft s verdict) := by
  cases verdict with
  | error fault => rfl
  | ok result =>
      have hsync := syncKv_seat call ω positions draft.tokens.length result (countVerified
        { s with targetKv := s.targetKv ++ s.cur :: draft.tokens.dropLast }
        draft.tokens.length result)
      simp only [conclude]
      rw [show countVerified { call.seat ω positions s with
          targetKv := (call.seat ω positions s).targetKv ++ (call.seat ω positions s).cur ::
            draft.tokens.dropLast } draft.tokens.length result =
        call.seat ω positions (countVerified { s with
          targetKv := s.targetKv ++ s.cur :: draft.tokens.dropLast }
          draft.tokens.length result) from rfl, hsync]
      cases call.syncKv draft.tokens.length result (countVerified
        { s with targetKv := s.targetKv ++ s.cur :: draft.tokens.dropLast } draft.tokens.length
          result) with
      | mk outcome after =>
          cases outcome with
          | error fault => rfl
          | ok _ => exact emitVerified_seat call ω positions _ _ _

/-- The verifying part of an iteration on the streams. -/
theorem run_verifyPhaseDrawing {draft : DraftResult ℝ} (hne : draft.tokens ≠ []) (s : LoopState ℝ) :
    let out := (call.verifyPhaseDrawing draft s).run ω positions
    (call.seeded ω).verifyPhase draft (call.seat ω positions s) = call.seatOut ω out.2 out.1 := by
  intro out
  obtain ⟨target, htarget⟩ : ∃ target : List TokenId → Except Fault (List ℝ),
      (fun w => .ok (distributionAfter call.lib call.gen call.decoder.target s.targetKv s.history
        s.cur w)) = target := ⟨_, rfl⟩
  have hverify := run_verifyDrawing call.verifierSeed ω positions target draft.tokens draft.probs []
  have honly := (only_verifyDrawing call.verifierSeed target draft.tokens draft.probs []).run_other
    call.verifierSeed_ne.symm ω positions
  simp only [out, verifyPhaseDrawing, Drawing.run_map, htarget]
  generalize (verifyDrawing call.verifierSeed target draft.tokens draft.probs []).run ω positions =
    verified at hverify honly ⊢
  have hloop : verifyLoop (batchTarget (call.seeded ω).lib
        ⟨call.gen, rngAt call.samplerSeed ω positions⟩
        (call.decoder.target.decodeBatch s.targetKv (s.cur :: draft.tokens.dropLast)).2 s.history)
        draft.tokens draft.probs [] (rngAt call.verifierSeed ω positions) =
      verifyLoop target draft.tokens draft.probs [] (rngAt call.verifierSeed ω positions) := by
    have hdist : distributionOf (call.seeded ω).lib = distributionOf call.lib :=
      distributionOf_seeded call.lib ω
    refine verifyLoop_congr fun w hw hlt => ?_
    rw [List.nil_append] at hw hlt
    rw [batchTarget_eq _ _ _ hw hlt, Sampler.distribution,
      if_neg (call.decoder.target.logits_ne_nil _), hdist]
    exact congrFun htarget w
  have hbatch : verifyBatch (call.seeded ω).lib (call.seeded ω).decoder.target
      (call.seat ω positions s).targetKv (call.seat ω positions s).cur draft
      (call.seat ω positions s).sampler (call.seat ω positions s).acceptRng
      (call.seat ω positions s).history =
      (verified.1, (call.seat ω positions s).targetKv ++
        (call.seat ω positions s).cur :: draft.tokens.dropLast,
        rngAt call.verifierSeed ω verified.2) := by
    simp only [verifyBatch, if_neg hne, LlamaBackend.decodeBatch_kv]
    exact congrArg (fun looped : Except Fault VerificationResult × Rng ℝ =>
      (looped.1, s.targetKv ++ s.cur :: draft.tokens.dropLast, looped.2)) (hloop.trans hverify)
  have hseat : { call.seat ω positions s with acceptRng := rngAt call.verifierSeed ω verified.2 } =
      call.seat ω verified.2 s := by
    simp only [seat, rngAt, honly]
  have hconclude : (call.seeded ω).verifyPhase draft (call.seat ω positions s) =
      (call.seeded ω).conclude draft (call.seat ω verified.2 s) verified.1 := by
    rw [verifyPhase, hbatch, ← hseat]
    cases verified.1 with
    | error fault => rfl
    | ok result =>
        dsimp only [conclude]
        split
        · rename_i hsynced
          rw [hsynced]
        · rename_i hsynced
          rw [hsynced]
          rfl
  rw [hconclude, conclude_seat]

/-- A plain step on the streams. -/
theorem run_plainDrawing (s : LoopState ℝ) :
    let out := (call.plainDrawing s).run ω positions
    (call.seeded ω).plainStep (call.seat ω positions s) = call.seatOut ω out.2 out.1 := by
  intro out
  have hne : call.decoder.target.logits (s.targetKv ++ [s.cur]) ≠ [] :=
    call.decoder.target.logits_ne_nil _
  have hprobs : distributionOf call.lib call.gen
      (call.decoder.target.logits (s.targetKv ++ [s.cur])) s.history ≠ [] := by
    rw [← List.length_pos_iff, length_distributionOf]
    exact List.length_pos_iff.mpr hne
  have hsample : (call.seat ω positions s).sampler.sample (call.seeded ω).lib
      (call.decoder.target.logits (s.targetKv ++ [s.cur])) s.history =
      if call.gen.temperature ≤ 0 then
        (.ok (maxElement (distributionOf call.lib call.gen
          (call.decoder.target.logits (s.targetKv ++ [s.cur])) s.history) : ℤ),
          ⟨call.gen, rngAt call.samplerSeed ω positions⟩)
      else (.ok (drawLoop 0 0 (ω (call.samplerSeed, positions call.samplerSeed)) (distributionOf
          call.lib call.gen (call.decoder.target.logits (s.targetKv ++ [s.cur])) s.history) : ℤ),
          ⟨call.gen, rngAt call.samplerSeed ω (Drawing.advance positions call.samplerSeed)⟩) := by
    have hdist : distributionOf (call.seeded ω).lib call.gen = distributionOf call.lib call.gen :=
      congrFun (distributionOf_seeded call.lib ω) call.gen
    rw [Sampler.sample, Sampler.distribution, if_neg hne]
    dsimp only [seat]
    rw [hdist, Sampler.draw, if_neg hprobs, next_rngAt]
    rfl
  obtain ⟨t, sampler, hsampled, -, -, hplain⟩ := plainStep_spec (call.seeded ω)
    (call.seat ω positions s)
  have hdrawn := hsampled.symm.trans hsample
  rw [hplain]
  by_cases hgreedy : call.gen.temperature ≤ 0
  · rw [if_pos hgreedy] at hdrawn
    cases hdrawn
    simp only [out, plainDrawing, if_pos hgreedy, Drawing.run]
    rw [← emit_seat]
    rfl
  · rw [if_neg hgreedy] at hdrawn
    cases hdrawn
    have hother : Drawing.advance positions call.samplerSeed call.verifierSeed =
        positions call.verifierSeed := Function.update_of_ne call.verifierSeed_ne _ _
    simp only [out, plainDrawing, if_neg hgreedy, Drawing.run_map, run_tokenDrawing]
    rw [← emit_seat]
    simp only [seat, rngAt, hother]

/-- An iteration on the streams is a run of the program. -/
theorem run_stepDrawing (hfree : FaultFree call) (s : LoopState ℝ) :
    let out := (call.stepDrawing s).run ω positions
    (call.seeded ω).step (call.seat ω positions s) = call.seatOut ω out.2 out.1 := by
  intro out
  have hguard : (call.seeded ω).vocabGuard (call.seat ω positions s) =
      call.seat ω positions (call.vocabGuard s) := by
    rw [vocabGuard, vocabGuard]
    change (if s.self.speculativeActive ∧ call.modelMode ∧ (call.draftVocab : ℤ) ≤ s.cur
      then _ else _) = _
    split
    · rfl
    · rfl
  by_cases hrunning : call.Running s
  · simp only [out, stepDrawing, if_pos hrunning]
    rw [step, if_pos (show (call.seeded ω).Running (call.seat ω positions s) from hrunning), hguard]
    dsimp only
    rw [seat_self, seat_lookupSkip]
    by_cases hdrafts : (call.vocabGuard s).self.speculativeActive = true ∧
        ¬ (call.vocabGuard s).lookupSkip = true
    · have hdrafted := run_draftDrawing call ω positions hfree (call.vocabGuard s)
      rw [if_pos hdrafts, if_pos hdrafts, Drawing.run_bind]
      generalize (call.draftDrawing (call.vocabGuard s)).run ω positions = drafted at hdrafted ⊢
      dsimp only at hdrafted ⊢
      obtain ⟨drafted, positions'⟩ := drafted
      rw [hdrafted]
      cases drafted with
      | retry s' => rfl
      | threw fault s' => rfl
      | proposed draft s' =>
          exact run_verifyPhaseDrawing call ω positions' (proposed_ne_nil hdrafted) s'
    · rw [if_neg hdrafts, if_neg hdrafts]
      exact run_plainDrawing call ω positions _
  · simp only [out, stepDrawing, if_neg hrunning, Drawing.run]
    rw [step, if_neg (show ¬ (call.seeded ω).Running (call.seat ω positions s) from hrunning)]
    rfl

/-- The loop on the streams is a run of the program. -/
theorem run_loopDrawing (hfree : FaultFree call) (fuel : ℕ) (s : LoopState ℝ) :
    let out := (call.loopDrawing fuel s).run ω positions
    Loop.run (call.seeded ω).step fuel (call.seat ω positions s) =
      out.1.map fun left => (left.1, call.seat ω out.2 left.2) := by
  induction fuel generalizing positions s with
  | zero => rfl
  | succ fuel ih =>
      have hstep := run_stepDrawing call ω positions hfree s
      intro out
      simp only [out, loopDrawing, Drawing.run_bind]
      generalize (call.stepDrawing s).run ω positions = stepped at hstep
      obtain ⟨after | left, positions'⟩ := stepped
      · rw [Loop.run_succ_of_next hstep]
        exact ih positions' after
      · rw [Loop.run_succ_of_leave hstep]
        rfl

end Call

end Reame.Speculative
