import Reame.Speculative.Iteration

/-!
# Iterations that reach their emission

An iteration throws on its own account in three places only: a lookup that fails, a verification
that looks up a token out of range, and a roll-back whose truncation of the draft fails.
`IterationOk` says that the iteration from a state does none of this.  Every other failure of a
draft model is caught, and costs no more than the proposal.

A call ends (`exists_exits_of_going`).  If all its iterations are of this kind, it ends with the
caller's answer or an end-of-generation token (`ownExit_of_ok`), and with the temperature off
each iteration is some number of greedy steps (`step_advances`).  One iteration that is not
ends the call with an exception (`exits_of_not_ok`).
-/

namespace Reame.Speculative

open Reame.Core

variable {K : Type*} [Field K] [LinearOrder K]

namespace Call

variable {call : Call K}

/-- The iteration that starts in `s` reaches its emission: drafting does not throw, the
verification finds every entry it looks up, and the roll-back after a rejection does not fail. -/
def IterationOk (call : Call K) (s : LoopState K) : Prop :=
  call.Running s → Drafting call s →
    (∀ fault s', call.draftPhase s ≠ .threw fault s') ∧
      ∀ draft drafted, call.draftPhase s = .proposed draft drafted →
        ∃ result, call.verdict draft drafted = .ok result ∧
          (result.correctedToken ≠ none → ¬ call.RollbackFails drafted)

/-- Then a verification is followed by the emission of the new tokens. -/
theorem IterationOk.emits {s drafted : LoopState K} {draft : DraftResult K}
    {out : LoopState K ⊕ (Exit × LoopState K)} (hok : IterationOk call s)
    (hrunning : call.Running s) (hdrafting : Drafting call s)
    (hphase : call.draftPhase s = .proposed draft drafted)
    (hverified : Verified call draft drafted out) :
    ∃ result synced, call.verdict draft drafted = .ok result ∧
      Synced call draft drafted result synced ∧
      out = call.emitVerified draft.tokens.length result synced := by
  obtain ⟨result, hresult, hrollback⟩ := (hok hrunning hdrafting).2 draft drafted hphase
  cases hverified with
  | outOfRange hverdict =>
      rw [hverdict] at hresult
      cases hresult
  | rollbackFailed hverdict _ _ hcorrected _ hfails =>
      rw [hverdict] at hresult
      cases hresult
      exact absurd hfails (hrollback hcorrected)
  | synced hverdict hsynced => exact ⟨_, _, hverdict, hsynced, rfl⟩

/-! ## Calls that end -/

theorem remaining_lt_of_longer {s s' : LoopState K} (hrunning : call.Running s)
    (hlonger : s.history.length < s'.history.length) : call.remaining s' < call.remaining s := by
  have hroom := hrunning.2
  unfold remaining
  split <;> split <;> omega

theorem EmittedOn.longer {tokens : List TokenId} {s s' : LoopState K}
    (hemitted : EmittedOn call tokens s s') (hne : tokens ≠ []) :
    s.history.length < s'.history.length := by
  obtain ⟨emitted, -, hhistory, hnonempty⟩ := hemitted.partly
  have hpos := List.length_pos_iff.mpr (hnonempty hne)
  rw [hhistory, List.length_append]
  omega

/-- Every iteration that goes on makes progress: a token is emitted, or drafting is given up. -/
theorem step_falls {s s' : LoopState K} (hattached : Attached call s) (hsync : TargetInSync call s)
    (hstep : call.step s = .inl s') : call.remaining s' < call.remaining s := by
  have hiterates := step_iterates hattached
  rw [hstep] at hiterates
  generalize hout : (Sum.inl s' : LoopState K ⊕ (Exit × LoopState K)) = out at hiterates
  cases hiterates with
  | ended => cases hout
  | lookupThrew => cases hout
  | gaveUp _ hdrafting _ hsame hmodel hlookup =>
      cases hout
      have hquiet : ¬ (s'.self.speculativeActive = true ∧ s'.lookupSkip = false) := by
        cases hmode : call.modelMode with
        | true => simp [hmodel hmode]
        | false => simp [hlookup hmode]
      rw [remaining, remaining, hsame.history, if_neg hquiet,
        if_pos ⟨hdrafting.active, hdrafting.skip⟩]
      omega
  | plain hrunning _ hsame =>
      have hlonger := ((emit_spec call _ _).2 s' hout.symm).longer (List.cons_ne_nil _ _)
      dsimp only at hlonger
      rw [hsame.history] at hlonger
      exact remaining_lt_of_longer hrunning hlonger
  | @verified draft drafted hrunning _ _ hne hdrafts =>
      have hsame := hdrafts.untouched
      have hverified := verifyPhase_verified (hsync.of_untouched hsame)
        (hsame.running.mpr hrunning) hne
      rw [← hout] at hverified
      obtain ⟨result, synced, after, self, hsynced, hemitted, rfl⟩ := hverified.goesOn
      have hlonger := hemitted.longer (newTokens_ne_nil hsynced.keeps hne)
      rw [hsynced.history, hsame.history] at hlonger
      exact remaining_lt_of_longer hrunning hlonger

theorem emitVerified_leaves {drafted : ℕ} {result : VerificationResult} {s : LoopState K}
    {out : Exit × LoopState K} (hout : call.emitVerified drafted result s = .inr out) :
    call.emit result.newTokens s = .inr out := by
  rw [emitVerified] at hout
  split at hout
  · rename_i left hemit
    cases hout
    exact hemit
  · cases hout

/-- An iteration of this kind that ends the call does so for the caller's reasons. -/
theorem step_ownExit {s s' : LoopState K} {e : Exit} (hattached : Attached call s)
    (hsync : TargetInSync call s) (hok : IterationOk call s) (hstep : call.step s = .inr (e, s')) :
    OwnExit e := by
  have hiterates := step_iterates hattached
  rw [hstep] at hiterates
  generalize hout : (Sum.inr (e, s') : LoopState K ⊕ (Exit × LoopState K)) = out at hiterates
  cases hiterates with
  | ended =>
      cases hout
      exact .inl rfl
  | gaveUp => cases hout
  | lookupThrew hrunning hdrafting hphase =>
      exact absurd hphase ((hok hrunning hdrafting).1 _ _)
  | plain => exact ((emit_spec call _ _).1 e s' hout.symm).1
  | @verified draft drafted hrunning hdrafting hphase hne hdrafts =>
      have hsame := hdrafts.untouched
      obtain ⟨result, synced, -, -, hemit⟩ := hok.emits hrunning hdrafting hphase
        (verifyPhase_verified (hsync.of_untouched hsame) (hsame.running.mpr hrunning) hne)
      rw [hemit] at hout
      exact ((emit_spec call _ _).1 e s' (emitVerified_leaves hout.symm)).1

/-- What survives every iteration: a draft model if one is used, and a synchronised target. -/
structure Going (call : Call K) (s : LoopState K) : Prop where
  attached : Attached call s
  sync : TargetInSync call s

theorem Going.next {s s' : LoopState K} (hgoing : Going call s) (hstep : call.step s = .inl s') :
    Going call s' := by
  have hadapts := step_adapts hgoing.attached hgoing.sync
  rw [hstep] at hadapts
  exact ⟨hgoing.attached.of_adapts hadapts, step_inSync hgoing.attached hgoing.sync hstep⟩

theorem Going.visits {s visited : LoopState K} (hgoing : Going call s)
    (hvisit : Loop.Visits call.step s visited) : Going call visited :=
  hvisit.invariant (Going call) hgoing fun _ _ hbefore hstep => hbefore.next hstep

theorem Going.initial {prompt : List TokenId} (hne : prompt ≠ []) {self : DecoderState}
    (draftState : DraftState)
    (hattached : call.modelMode = true → self.speculativeActive = true →
      call.decoder.draft.isSome) : Going call (call.initial self draftState prompt) :=
  ⟨fun hmode hactive => hattached hmode
    ((draftPrefill_adapts call prompt (prompt.length - 1) self draftState).active hactive),
    initial_targetInSync hne self draftState⟩

variable (call) in
/-- Every call ends. -/
theorem exists_exits_of_going {s : LoopState K} (hgoing : Going call s) :
    ∃ e s', Loop.Exits call.step s (e, s') := by
  obtain ⟨⟨e, s'⟩, hexits⟩ := Loop.exists_exits_of_measure (Going call) call.remaining
    (fun before after hbefore hstep =>
      ⟨hbefore.next hstep, step_falls hbefore.attached hbefore.sync hstep⟩) hgoing
  exact ⟨e, s', hexits⟩

/-- A call whose iterations all reach their emission ends for the caller's reasons. -/
theorem ownExit_of_ok {s s' : LoopState K} {e : Exit} (hgoing : Going call s)
    (hok : ∀ visited, Loop.Visits call.step s visited → IterationOk call visited)
    (hexits : Loop.Exits call.step s (e, s')) : OwnExit e := by
  generalize hout : (e, s') = out at hexits
  induction hexits generalizing e s' with
  | leave hstep =>
      subst hout
      exact step_ownExit hgoing.attached hgoing.sync (hok _ .start) hstep
  | next hstep _ ih =>
      exact ih (hgoing.next hstep) (fun visited hvisit => hok visited (hvisit.of_next hstep)) hout

/-! ## Calls that do not -/

omit [LinearOrder K] in
theorem oneHotProbs_error {n : ℕ} {tokens : List TokenId} {fault : Fault}
    (hprobs : oneHotProbs (K := K) n tokens = .error fault) : fault = .outOfBounds := by
  induction tokens with
  | nil => cases hprobs
  | cons t rest ih =>
      rw [oneHotProbs, List.mapM_cons] at hprobs
      by_cases hvocab : 0 ≤ t ∧ t < (n : ℤ)
      · rw [if_pos hvocab] at hprobs
        cases hrest : oneHotProbs (K := K) n rest with
        | error fault' =>
            have hfault := hrest
            rw [oneHotProbs] at hrest
            rw [hrest] at hprobs
            cases hprobs
            exact ih hfault
        | ok others =>
            rw [oneHotProbs] at hrest
            rw [hrest] at hprobs
            cases hprobs
      · rw [if_neg hvocab] at hprobs
        cases hprobs
        rfl

theorem lookupDraft_error {history : List TokenId} {n : ℤ} {fault : Fault}
    (hlookup : call.lookupDraft history n = .error fault) : fault = .lengthError := by
  rw [lookupDraft] at hlookup
  split at hlookup
  · cases hlookup
  · dsimp only at hlookup
    split at hlookup
    · split at hlookup
      · cases hlookup
        rfl
      · cases hlookup
    · cases hlookup

theorem Drafting.not_quiet {s : LoopState K} (hdrafting : Drafting call s) : ¬ Quiet call s := by
  intro hquiet
  rw [Quiet, hdrafting.guarded] at hquiet
  exact hquiet ⟨hdrafting.active, by simp [hdrafting.skip]⟩

/-- An iteration that is not of this kind ends the call with an exception of its own. -/
theorem exits_of_not_ok {s visited : LoopState K} (hgoing : Going call s)
    (hvisit : Loop.Visits call.step s visited) (hbad : ¬ IterationOk call visited) :
    ∃ fault s', Loop.Exits call.step s (.threw fault, s') ∧ fault ≠ .callback := by
  obtain ⟨hattached, hsync⟩ := hgoing.visits hvisit
  suffices hleaves : ∃ fault s', call.step visited = .inr (.threw fault, s') ∧ fault ≠ .callback by
    obtain ⟨fault, s', hstep, hfault⟩ := hleaves
    exact ⟨fault, s', .of_visits hvisit (.leave hstep), hfault⟩
  have hiterates := step_iterates hattached
  generalize call.step visited = out at hiterates
  cases hiterates with
  | ended hstop => exact absurd (fun hrunning => absurd hrunning hstop) hbad
  | plain _ hquiet => exact absurd (fun _ hdrafting => absurd hquiet hdrafting.not_quiet) hbad
  | gaveUp _ _ hphase =>
      refine absurd (fun _ _ => ⟨fun fault s' => ?_, fun draft drafted => ?_⟩) hbad
      · rw [hphase]
        rintro ⟨⟩
      · rw [hphase]
        rintro ⟨⟩
  | lookupThrew _ _ _ _ hfault =>
      refine ⟨_, _, rfl, ?_⟩
      rcases hfault with hlookup | ⟨_, -, hprobs⟩
      · rw [lookupDraft_error hlookup]
        rintro ⟨⟩
      · rw [oneHotProbs_error hprobs]
        rintro ⟨⟩
  | @verified draft drafted hrunning _ hphase hne hdrafts =>
      have hsame := hdrafts.untouched
      have hverified := verifyPhase_verified (hsync.of_untouched hsame)
        (hsame.running.mpr hrunning) hne
      generalize call.verifyPhase draft drafted = out at hverified
      cases hverified with
      | outOfRange => exact ⟨_, _, rfl, by rintro ⟨⟩⟩
      | rollbackFailed => exact ⟨_, _, rfl, by rintro ⟨⟩⟩
      | synced hverdict _ hrollback =>
          refine absurd (fun _ _ => ⟨fun fault s' => ?_, fun draft' drafted' hphase' => ?_⟩) hbad
          · rw [hphase]
            rintro ⟨⟩
          · rw [hphase] at hphase'
            cases hphase'
            exact ⟨_, hverdict, hrollback⟩

/-! ## Drafts are greedy -/

theorem InSync.toTarget {prompt : List TokenId} {s : LoopState K} (hsync : InSync call prompt s) :
    TargetInSync call s :=
  ⟨hsync.cur, hsync.kv⟩

theorem GreedySampler.continues {sampler sampler' : Sampler K} (hsampler : GreedySampler call sampler)
    (hcontinues : sampler.Continues sampler') : GreedySampler call sampler' :=
  ⟨hcontinues.config.trans hsampler.config, by rw [hcontinues.stream]; exact hsampler.stream⟩

theorem InSync.of_untouched {prompt : List TokenId} {s s' : LoopState K}
    (hsync : InSync call prompt s) (hsame : Untouched s s') : InSync call prompt s' := by
  obtain ⟨hcur, hkv⟩ := hsync.toTarget.of_untouched hsame
  refine ⟨?_, hcur, hkv, hsync.sampler.continues hsame.sampler, ?_⟩
  · rw [hsame.history]
    exact hsync.generated
  · rw [hsame.acceptRng]
    exact hsync.acceptRng

omit [Field K] [LinearOrder K] in
theorem Untouched.progress {s s' : LoopState K} (hsame : Untouched s s') :
    s'.progress = s.progress := by
  rw [LoopState.progress, LoopState.progress, hsame.history, hsame.emitted, hsame.delivered]

variable [IsStrictOrderedRing K]

/-- A draft model that answers proposes its own greedy tokens, each with its one-hot. -/
theorem rolloutLoop_greedy {backend : FaultyBackend K} {nVocab : ℕ}
    (htemp : call.gen.temperature ≤ 0)
    (hvalid : ∀ kv recent, greedyToken call.gen (backend.logits kv) recent < nVocab) (n : ℕ)
    {cur : TokenId} {history : List TokenId} {sampler : Sampler K} {draft : DraftState}
    {result proposed : DraftResult K} (hsampler : GreedySampler call sampler)
    (hresult : OneHotDraft nVocab result.tokens result.probs)
    (hproposed : (rolloutLoop call.lib backend n cur history sampler draft result).result =
      .ok proposed) : OneHotDraft nVocab proposed.tokens proposed.probs := by
  induction n generalizing cur history sampler draft result with
  | zero =>
      cases hproposed
      exact hresult
  | succ n ih =>
      have hne : backend.logits (draft.kv ++ [cur]) ≠ [] := backend.logits_ne_nil _
      have hgreedy : sampler.config.temperature ≤ 0 := by rw [hsampler.config]; exact htemp
      have hdist := distribution_greedy call.lib hgreedy hne history
      have hlt := greedyToken_lt sampler.config history hne
      have hvalid' := hvalid (draft.kv ++ [cur]) history
      rw [← hsampler.config] at hvalid'
      have hnonempty : (oneHot (backend.logits (draft.kv ++ [cur])).length
          (greedyToken sampler.config (backend.logits (draft.kv ++ [cur])) history) : List K) ≠ [] := by
        rw [← List.length_pos_iff, length_oneHot]
        omega
      have hdrawn := drawLoop_oneHot hlt (hsampler.stream sampler.rng.position).2
      have hsampler' : GreedySampler call
          { sampler with rng := { sampler.rng with position := sampler.rng.position + 1 } } :=
        ⟨hsampler.config, hsampler.stream⟩
      have hresult' := OneHotDraft.snoc hresult hvalid' hlt
      rcases backend.decodeAppend_spec draft [cur] with ⟨fault, after, hcall⟩ | hcall
      · rw [rolloutLoop, hcall] at hproposed
        cases hproposed
      · simp only [rolloutLoop, hcall, hdist, Sampler.draw, if_neg hnonempty, Rng.next, hdrawn]
          at hproposed
        split at hproposed
        · cases hproposed
          exact hresult'
        · exact ih hsampler' hresult' hproposed

omit [LinearOrder K] [IsStrictOrderedRing K] in
/-- A looked-up draft gets its one-hots. -/
theorem oneHotProbs_greedy {nVocab : ℕ} {tokens : List TokenId} {probs : List (List K)}
    (hprobs : oneHotProbs nVocab tokens = .ok probs) : OneHotDraft nVocab tokens probs := by
  induction tokens generalizing probs with
  | nil =>
      cases hprobs
      exact .nil
  | cons t rest ih =>
      rw [oneHotProbs, List.mapM_cons] at hprobs
      by_cases hvocab : 0 ≤ t ∧ t < (nVocab : ℤ)
      · rw [if_pos hvocab] at hprobs
        cases hrest : oneHotProbs (K := K) nVocab rest with
        | error fault =>
            rw [oneHotProbs] at hrest
            rw [hrest] at hprobs
            cases hprobs
        | ok others =>
            have hothers := ih hrest
            rw [oneHotProbs] at hrest
            rw [hrest] at hprobs
            cases hprobs
            obtain ⟨hlow, hhigh⟩ := hvocab
            lift t to ℕ using hlow
            exact .cons ⟨t, nVocab, Int.ofNat_lt.mp hhigh, Int.ofNat_lt.mp hhigh, rfl, rfl⟩ hothers
      · rw [if_neg hvocab] at hprobs
        cases hprobs

theorem modelDraftPhase_greedy (htemp : call.gen.temperature ≤ 0) {backend : FaultyBackend K}
    (hbackend : call.decoder.draft = some backend) {nVocab : ℕ}
    (hvalid : ∀ kv recent, greedyToken call.gen (backend.logits kv) recent < nVocab)
    {s drafted : LoopState K} {draft : DraftResult K} (hsampler : GreedySampler call s.sampler)
    (hphase : call.modelDraftPhase s = .proposed draft drafted) :
    OneHotDraft nVocab draft.tokens draft.probs := by
  rw [modelDraftPhase, hbackend] at hphase
  dsimp only at hphase
  split at hphase
  · cases hphase
  · rename_i proposed hproposed
    split at hphase
    · cases hphase
    · cases hphase
      have hempty : OneHotDraft nVocab ({} : DraftResult K).tokens ({} : DraftResult K).probs := .nil
      exact rolloutLoop_greedy htemp hvalid _ hsampler hempty hproposed

omit [IsStrictOrderedRing K] in
theorem lookupDraftPhase_greedy {s drafted : LoopState K} {draft : DraftResult K}
    (hphase : call.lookupDraftPhase s = .proposed draft drafted) :
    OneHotDraft call.decoder.target.vocabSize draft.tokens draft.probs := by
  rw [lookupDraftPhase] at hphase
  split at hphase
  · cases hphase
  · split at hphase
    · cases hphase
    · rename_i probs hprobs
      split at hphase
      · cases hphase
      · cases hphase
        exact oneHotProbs_greedy hprobs

/-- What an iteration proposes is greedy, by the draft model or by the one-hots of a lookup. -/
theorem draftPhase_greedy (htemp : call.gen.temperature ≤ 0) {s drafted : LoopState K}
    {draft : DraftResult K} (hsampler : GreedySampler call s.sampler)
    (hphase : call.draftPhase s = .proposed draft drafted) :
    ∃ n, OneHotDraft n draft.tokens draft.probs := by
  rw [draftPhase] at hphase
  by_cases hmode : call.modelMode = true
  · rw [if_pos hmode] at hphase
    cases hbackend : call.decoder.draft with
    | none =>
        rw [modelDraftPhase, hbackend] at hphase
        cases hphase
    | some backend =>
        refine ⟨backend.vocabSize, modelDraftPhase_greedy htemp hbackend (fun kv recent => ?_)
          hsampler hphase⟩
        rw [← backend.length_logits kv]
        exact greedyToken_lt call.gen recent (backend.logits_ne_nil kv)
  · rw [if_neg hmode] at hphase
    exact ⟨_, lookupDraftPhase_greedy hphase⟩

/-- The new tokens of a verification are a chain of greedy tokens. -/
theorem verdict_greedy (htemp : call.gen.temperature ≤ 0) {prompt : List TokenId} {n : ℕ}
    {draft : DraftResult K} {s : LoopState K} {result : VerificationResult}
    (hsync : InSync call prompt s) (hrunning : call.Running s) (hne : draft.tokens ≠ [])
    (hdraft : OneHotDraft n draft.tokens draft.probs) (hverdict : call.verdict draft s = .ok result) :
    GreedyChain (fun w => call.greedyNext (s.history ++ w)) [] result.newTokens := by
  obtain ⟨hkv, -⟩ := hsync.kv hrunning
  have hgreedy : s.sampler.config.temperature ≤ 0 := by rw [hsync.sampler.config]; exact htemp
  -- At every prefix of the draft the batch holds the logits plain decoding would see.
  have htarget : ∀ w, w <+: [] ++ draft.tokens → w.length < ([] ++ draft.tokens).length →
      batchTarget call.lib s.sampler
        (call.decoder.target.decodeBatch s.targetKv (s.cur :: draft.tokens.dropLast)).2 s.history w =
        .ok (oneHot call.decoder.target.vocabSize (call.greedyNext (s.history ++ w))) := by
    intro w hw hlt
    rw [List.nil_append] at hw hlt
    rw [batchTarget_eq call.lib _ _ hw hlt, List.append_cons, hkv,
      distribution_greedy call.lib hgreedy (LlamaBackend.logits_ne_nil _ _),
      call.decoder.target.length_logits, hsync.sampler.config, greedyNext]
  cases hloop : verifyLoop (batchTarget call.lib s.sampler
      (call.decoder.target.decodeBatch s.targetKv (s.cur :: draft.tokens.dropLast)).2 s.history)
      draft.tokens draft.probs [] s.acceptRng with
  | mk verdict rng =>
      simp only [Call.verdict, verifyBatch, if_neg hne, hloop] at hverdict
      subst hverdict
      obtain ⟨new, hnew, hchain⟩ := verifyLoop_greedy
        (fun w => call.greedyNext_lt (s.history ++ w)) htarget hdraft hsync.acceptRng hloop
      rw [hnew]
      exact hchain

/-! ## Iterations are greedy steps -/

/-- With the temperature off, an iteration that reaches its emission is some number of greedy
steps. -/
theorem step_advances {prompt : List TokenId} (htemp : call.gen.temperature ≤ 0)
    {s : LoopState K} (hattached : Attached call s) (hsync : InSync call prompt s)
    (hok : IterationOk call s) :
    (∀ e s', call.step s = .inr (e, s') →
        Loop.Exits call.greedyStep s.progress (e, s'.progress)) ∧
      ∀ s', call.step s = .inl s' → Advanced call prompt s s' := by
  have hfalls : ∀ s', call.step s = .inl s' → call.remaining s' < call.remaining s :=
    fun _ hstep => step_falls hattached hsync.toTarget hstep
  have hiterates := step_iterates hattached
  generalize call.step s = out at hfalls hiterates
  cases hiterates with
  | ended hstop =>
      refine ⟨?_, by rintro s' ⟨⟩⟩
      rintro e s' ⟨⟩
      exact .leave (if_neg hstop)
  | lookupThrew hrunning hdrafting hphase =>
      exact absurd hphase ((hok hrunning hdrafting).1 _ _)
  | gaveUp _ _ _ hsame =>
      refine ⟨by rintro e s' ⟨⟩, ?_⟩
      rintro s' ⟨⟩
      refine ⟨hsync.of_untouched hsame, fun out hout => ?_, hfalls _ rfl⟩
      rw [← hsame.progress]
      exact hout
  | @plain same t sampler hrunning _ hsame _ _ hsample _ hcontinues =>
      have hsynced := hsync.of_untouched hsame
      obtain ⟨hkv, hbase⟩ := hsync.kv hrunning
      have hgreedy : same.sampler.config.temperature ≤ 0 := by
        rw [hsynced.sampler.config]
        exact htemp
      -- The target sequence with the newest token is the history.
      have ht : t = call.greedyNext s.history := by
        rw [hkv, sample_greedy call.lib hgreedy (call.decoder.target.logits_ne_nil s.history),
          hsynced.sampler.config] at hsample
        cases hsample
        rfl
      have hchain : GreedyChain (fun w => call.greedyNext (s.history ++ w)) [] [t] :=
        ⟨by simp [ht], trivial⟩
      rw [← hsame.history] at hchain
      have hemit := emit_advances s
        { same with
          lookupSkip := false, targetKv := s.targetKv ++ [s.cur], base := s.base + 1, sampler }
        (hsame.running.mpr hrunning) (List.cons_ne_nil _ _) hchain hsynced.generated hsynced.cur
        ⟨by simp [hkv, hsame.history], by simp [hbase]⟩ (hsync.sampler.continues hcontinues)
        hsynced.acceptRng hsame.progress.symm
      exact ⟨hemit.1, fun s' hs' => hemit.2 s' hs' s'.self⟩
  | @verified draft drafted hrunning hdrafting hphase hne hdrafts =>
      have hsame := hdrafts.untouched
      have hdrafted := hsync.of_untouched hsame
      have hrunning' := hsame.running.mpr hrunning
      obtain ⟨result, synced, hverdict, hsynced, hemitted⟩ := hok.emits hrunning hdrafting hphase
        (verifyPhase_verified hdrafted.toTarget hrunning' hne)
      obtain ⟨n, hdraft⟩ := draftPhase_greedy htemp hsync.sampler hphase
      have hchain := verdict_greedy htemp hdrafted hrunning' hne hdraft hverdict
      rw [← hsynced.history] at hchain
      have hemit := emit_advances s synced
        (by rw [Running, hsynced.emitted, hsynced.history]; exact hrunning')
        (newTokens_ne_nil hsynced.keeps hne) hchain
        (by rw [hsynced.history]; exact hdrafted.generated)
        (by rw [hsynced.history, hsynced.cur]; exact hdrafted.cur)
        ⟨by rw [hsynced.history]; exact hsynced.targetKv, hsynced.base⟩
        (by rw [hsynced.sampler]; exact hdrafted.sampler)
        (by rw [hsynced.stream]; exact hdrafted.acceptRng)
        (by rw [← hsame.progress, LoopState.progress, LoopState.progress, hsynced.history,
          hsynced.emitted, hsynced.delivered])
      rw [hemitted]
      refine ⟨fun e s' hout => hemit.1 e s' (emitVerified_leaves hout), fun s' hout => ?_⟩
      rw [emitVerified] at hout
      cases hafter : call.emit result.newTokens synced with
      | inr left =>
          rw [hafter] at hout
          cases hout
      | inl after =>
          rw [hafter] at hout
          cases hout
          exact hemit.2 after hafter _

/-- A call whose iterations all reach their emission is sequential greedy decoding. -/
theorem exists_greedy_exits {prompt : List TokenId} (htemp : call.gen.temperature ≤ 0)
    {s : LoopState K} (hattached : Attached call s) (hsync : InSync call prompt s)
    (hok : ∀ visited, Loop.Visits call.step s visited → IterationOk call visited) :
    ∃ e s', Loop.Exits call.step s (e, s') ∧
      Loop.Exits call.greedyStep s.progress (e, s'.progress) := by
  have hgoing : Going call s := ⟨hattached, hsync.toTarget⟩
  obtain ⟨e, s', hexits⟩ := exists_exits_of_going call hgoing
  refine ⟨e, s', hexits, ?_⟩
  refine Loop.Exits.simulate call.greedyStep
    (fun state => InSync call prompt state ∧ Loop.Visits call.step s state) LoopState.progress
    (fun out => (out.1, out.2.progress)) (fun before after hbefore hstep => ?_) ?_ hexits
    ⟨hsync, .start⟩
  · obtain ⟨hsync', hvisit⟩ := hbefore
    have hadvanced := (step_advances htemp (hgoing.visits hvisit).attached hsync'
      (hok before hvisit)).2 after hstep
    exact ⟨⟨hadvanced.sync, .next hvisit hstep⟩, hadvanced.replay⟩
  · rintro state ⟨e, s'⟩ ⟨hsync', hvisit⟩ hstep
    exact (step_advances htemp (hgoing.visits hvisit).attached hsync' (hok state hvisit)).1 e s' hstep

end Call

end Reame.Speculative
