import Reame.Speculative.GreedyCalls

/-!
# Looked-up tokens

A lookup decoder proposes tokens of the history, of the archive, or of the tokenizer, and builds
a one-hot distribution for each: a vector of `vocab_size()` entries, written at the token.  When
the prompt is in the vocabulary the history stays in it, at every temperature and however the call
ends.  So the archive is all that matters: when it answers a history of the vocabulary with tokens
of the vocabulary, no iteration reads or writes out of bounds (`lookupInBounds_of_archive`).
-/

namespace Reame.Speculative

open Reame.Core

variable {K : Type*} [Field K] [LinearOrder K]

/-- `tokenize` of the model yields tokens of the model. -/
def TokenizesInVocab (backend : LlamaBackend K) : Prop :=
  ∀ text special, ∀ t ∈ backend.tokenize text special, backend.InVocab t

/-- The archive goes on from tokens of the vocabulary with tokens of the vocabulary. -/
def Archive.AnswersIn (archive : Archive) (InVocab : TokenId → Prop) : Prop :=
  ∀ history, (∀ t ∈ history, InVocab t) → ∀ k, ∀ t ∈ archive.draft history k, InVocab t

namespace Call

/-- In every iteration that looks a draft up, what the archive proposes and what is verified are
tokens of the target, and neither the one-hots nor the verification are indexed out of bounds. -/
def LookupInBounds (call : Call K) (archive : Archive) (members : DecoderState)
    (draftState : DraftState) (prompt : List TokenId) : Prop :=
  ∀ s, Loop.Visits call.step (call.initial members draftState prompt) s →
    call.Running s → Drafting call s →
    (∀ t ∈ archive.draft s.history (call.nDraft s), call.decoder.target.InVocab t) ∧
      (∀ s', call.draftPhase s ≠ .threw .outOfBounds s') ∧
      ∀ draft drafted, call.draftPhase s = .proposed draft drafted →
        (∀ t ∈ draft.tokens, call.decoder.target.InVocab t) ∧
          call.verdict draft drafted ≠ .error .outOfBounds

variable {call : Call K}

/-! ## The history -/

variable (call) in
/-- However emission ends, it has added some front of the tokens. -/
theorem stateAfter_emit_history (tokens : List TokenId) (s : LoopState K) :
    ∃ emitted, emitted <+: tokens ∧
      (stateAfter (call.emit tokens s)).history = s.history ++ emitted := by
  obtain ⟨hleave, hstay⟩ := emit_spec call tokens s
  cases hemit : call.emit tokens s with
  | inl s' =>
      obtain ⟨emitted, hfront, hhistory, -⟩ := (hstay s' hemit).partly
      exact ⟨emitted, hfront, hhistory⟩
  | inr out => exact (hleave out.1 out.2 hemit).2.2

variable (call) in
theorem stateAfter_emitVerified_history (drafted : ℕ) (result : VerificationResult)
    (s : LoopState K) :
    (stateAfter (call.emitVerified drafted result s)).history =
      (stateAfter (call.emit result.newTokens s)).history := by
  rw [emitVerified]
  cases call.emit result.newTokens s <;> rfl

/-- Without a draft model the decoder needs none. -/
theorem attached_of_lookup (hmode : call.modelMode = false) (s : LoopState K) : Attached call s := by
  intro hmodel
  rw [hmode] at hmodel
  cases hmodel

/-- What one iteration adds to the history are tokens of the vocabulary. -/
theorem step_history_inVocab (hmode : call.modelMode = false) {s : LoopState K}
    (hsync : TargetInSync call s) (hvocab : ∀ t ∈ s.history, call.decoder.target.InVocab t) :
    ∀ t ∈ (stateAfter (call.step s)).history, call.decoder.target.InVocab t := by
  -- It is enough to look at the tokens that are emitted.
  have hadds : ∀ tokens from', from'.history = s.history →
      (∀ t ∈ tokens, call.decoder.target.InVocab t) →
      ∀ t ∈ (stateAfter (call.emit tokens from')).history, call.decoder.target.InVocab t := by
    intro tokens from' hfrom htokens t ht
    obtain ⟨emitted, hfront, hhistory⟩ := stateAfter_emit_history call tokens from'
    rw [hhistory, hfrom] at ht
    rcases List.mem_append.mp ht with ht | ht
    · exact hvocab t ht
    · exact htokens t (hfront.subset ht)
  have hiterates := step_iterates (attached_of_lookup hmode s)
  generalize call.step s = out at hiterates
  cases hiterates with
  | ended => exact hvocab
  | lookupThrew => exact hvocab
  | gaveUp _ _ _ hsame =>
      rw [stateAfter, hsame.history]
      exact hvocab
  | plain _ _ hsame _ _ _ hnew =>
      refine hadds _ _ hsame.history fun t ht => ?_
      rw [List.mem_singleton.mp ht]
      exact hnew
  | @verified draft drafted hrunning _ _ hne hdrafts =>
      have hsame := hdrafts.untouched
      have hverified := verifyPhase_verified (hsync.of_untouched hsame)
        (hsame.running.mpr hrunning) hne
      generalize call.verifyPhase draft drafted = out at hverified
      cases hverified with
      | outOfRange _ hcut =>
          rw [stateAfter, hcut.history, hsame.history]
          exact hvocab
      | rollbackFailed _ hcut =>
          rw [stateAfter, hcut.history, hsame.history]
          exact hvocab
      | @synced result synced _ hsynced =>
          rw [stateAfter_emitVerified_history]
          refine hadds _ _ (hsynced.history.trans hsame.history) fun t ht => ?_
          -- A new token is an accepted one of the draft, or the correction.
          obtain ⟨kept, hkept, haccepted, -⟩ := hsynced.keeps
          rcases List.mem_append.mp ht with ht | ht
          · rw [haccepted] at ht
            cases hdrafts with
            | model hmodel =>
                rw [hmode] at hmodel
                cases hmodel
            | lookup _ _ hdrafted => exact hdrafted.mem t (hkept.subset ht)
          · exact hsynced.corrected t (Option.mem_toList.mp ht)

/-- The target in sync, and a history in its vocabulary. -/
structure KnownHistory (call : Call K) (s : LoopState K) : Prop extends TargetInSync call s where
  inVocab : ∀ t ∈ s.history, call.decoder.target.InVocab t

theorem KnownHistory.visits (hmode : call.modelMode = false) {first s : LoopState K}
    (hknown : KnownHistory call first) (hvisit : Loop.Visits call.step first s) :
    KnownHistory call s := by
  refine hvisit.invariant (KnownHistory call) hknown fun before after hbefore hstep => ?_
  have hafter := step_history_inVocab hmode hbefore.toTargetInSync hbefore.inVocab
  rw [hstep] at hafter
  exact ⟨step_inSync (attached_of_lookup hmode before) hbefore.toTargetInSync hstep, hafter⟩

theorem KnownHistory.initial {prompt : List TokenId} (hne : prompt ≠ [])
    (hprompt : ∀ t ∈ prompt, call.decoder.target.InVocab t) (members : DecoderState)
    (draftState : DraftState) : KnownHistory call (call.initial members draftState prompt) :=
  ⟨initial_targetInSync hne members draftState, hprompt⟩

/-- However a call ends, what the archive is then given are tokens of the vocabulary. -/
theorem observed_inVocab {fuel : ℕ} {members : DecoderState} {draftState : DraftState}
    {prompt : List TokenId} {result : StreamResult} (hmode : call.modelMode = false)
    (hprompt : ∀ t ∈ prompt, call.decoder.target.InVocab t)
    (hrun : call.generateStream fuel members draftState prompt = some result) :
    ∀ tokens ∈ result.observed, ∀ t ∈ tokens, call.decoder.target.InVocab t := by
  rw [generateStream] at hrun
  cases hcheck : call.checkPrompt prompt with
  | error fault =>
      rw [hcheck] at hrun
      cases hrun
      simp
  | ok _ =>
      rw [hcheck] at hrun
      obtain ⟨out, hloop, rfl⟩ := Option.map_eq_some_iff.mp hrun
      obtain ⟨last, hvisit, hstep⟩ := (Loop.Exits.of_run hloop).last
      have hknown := (KnownHistory.initial (checkPrompt_ok_iff.mp hcheck).1 hprompt members
        draftState).visits hmode hvisit
      have hlast := step_history_inVocab hmode hknown.toTargetInSync hknown.inVocab
      rw [hstep] at hlast
      intro tokens htokens
      simp only [resultOf, observed] at htokens
      split at htokens
      · obtain rfl := Option.mem_some_iff.mp htokens
        exact hlast
      · cases htokens

/-! ## The sources -/

/-- When history and archive have tokens of the vocabulary to offer, and the tokenizer too, so are
looked-up drafts. -/
theorem lookupDraft_inVocab_of_retrieved (htokenizes : TokenizesInVocab call.decoder.target)
    {history tokens : List TokenId} {n : ℤ}
    (hretrieved : ∀ t ∈ call.retrievedDraft history n, call.decoder.target.InVocab t)
    (hlookup : call.lookupDraft history n = .ok tokens) :
    ∀ t ∈ tokens, call.decoder.target.InVocab t := by
  have hstructural : ∀ t ∈ call.structuralDraft history, call.decoder.target.InVocab t := by
    intro t ht
    rw [structuralDraft] at ht
    split at ht
    · cases ht
    · exact htokenizes _ _ t ht
  rw [lookupDraft] at hlookup
  split at hlookup
  · cases hlookup
    exact hretrieved
  · dsimp only at hlookup
    split at hlookup
    · split at hlookup
      · cases hlookup
      · cases hlookup
        exact fun t ht => hstructural t (List.mem_of_mem_take ht)
    · cases hlookup
      exact hstructural

/-- Without an archive. -/
theorem lookupDraft_inVocab_of_quiet (hcorpus : call.decoder.config.corpus = none)
    (htokenizes : TokenizesInVocab call.decoder.target) {history tokens : List TokenId} {n : ℤ}
    (hhistory : ∀ t ∈ history, call.decoder.target.InVocab t)
    (hlookup : call.lookupDraft history n = .ok tokens) :
    ∀ t ∈ tokens, call.decoder.target.InVocab t := by
  refine lookupDraft_inVocab_of_retrieved htokenizes (fun t ht => ?_) hlookup
  simp only [retrievedDraft, hcorpus] at ht
  exact hhistory t (findDraft_subset _ _ _ _ ht)

/-- With an archive that answers in the vocabulary. -/
theorem lookupDraft_inVocab {archive : Archive} (hcorpus : call.decoder.config.corpus = some archive)
    (hanswers : archive.AnswersIn call.decoder.target.InVocab)
    (htokenizes : TokenizesInVocab call.decoder.target) {history tokens : List TokenId} {n : ℤ}
    (hhistory : ∀ t ∈ history, call.decoder.target.InVocab t)
    (hlookup : call.lookupDraft history n = .ok tokens) :
    ∀ t ∈ tokens, call.decoder.target.InVocab t := by
  refine lookupDraft_inVocab_of_retrieved htokenizes (fun t ht => ?_) hlookup
  simp only [retrievedDraft, hcorpus] at ht
  split at ht
  · exact hanswers history hhistory n t ht
  · exact hhistory t (findDraft_subset _ _ _ _ ht)

/-- With such an archive every index is in bounds. -/
theorem lookupInBounds_of_archive {archive : Archive} (hmode : call.modelMode = false)
    (hcorpus : call.decoder.config.corpus = some archive)
    (hanswers : archive.AnswersIn call.decoder.target.InVocab)
    (htokenizes : TokenizesInVocab call.decoder.target) {prompt : List TokenId} (hne : prompt ≠ [])
    (hprompt : ∀ t ∈ prompt, call.decoder.target.InVocab t) (members : DecoderState)
    (draftState : DraftState) : LookupInBounds call archive members draftState prompt := by
  intro s hvisit hrunning hdrafting
  have hknown := (KnownHistory.initial hne hprompt members draftState).visits hmode hvisit
  have hattached := attached_of_lookup hmode s
  refine ⟨hanswers _ hknown.inVocab _, fun s' hphase => ?_, fun draft drafted hphase => ?_⟩
  · rcases (draftPhase_threw hattached hdrafting.active hphase).2 with
      hlookup | ⟨tokens, hlookup, hprobs⟩
    · cases lookupDraft_error hlookup
    · obtain ⟨probs, hok⟩ := oneHotProbs_ok (K := K)
        (lookupDraft_inVocab hcorpus hanswers htokenizes hknown.inVocab hlookup)
      rw [hok] at hprobs
      cases hprobs
  · obtain ⟨hdraft, hdrafts⟩ := draftPhase_proposed hattached hdrafting.active hphase
    cases hdrafts with
    | model hmodel =>
        rw [hmode] at hmodel
        cases hmodel
    | lookup _ _ hvocab =>
        refine ⟨hvocab.mem, ?_⟩
        have hverified := verifyPhase_verified hknown.toTargetInSync hrunning hdraft
        generalize call.verifyPhase draft s = out at hverified
        cases hverified with
        | outOfRange _ _ _ _ hbad => exact absurd hvocab hbad
        | rollbackFailed hverdict => simp [hverdict]
        | synced hverdict => simp [hverdict]

/-- A call whose indices are in bounds does not end with one that is not. -/
theorem LookupInBounds.exit {archive : Archive} {fuel : ℕ} {members : DecoderState}
    {draftState : DraftState} {prompt : List TokenId} {result : StreamResult}
    (hbounds : LookupInBounds call archive members draftState prompt)
    (hmode : call.modelMode = false)
    (hrun : call.generateStream fuel members draftState prompt = some result) :
    result.exit ≠ .threw .outOfBounds := by
  rw [generateStream] at hrun
  cases hcheck : call.checkPrompt prompt with
  | error fault =>
      rw [hcheck] at hrun
      cases hrun
      rw [checkPrompt] at hcheck
      split at hcheck
      · cases hcheck
        simp
      · split at hcheck <;> cases hcheck
        simp
  | ok _ =>
      rw [hcheck] at hrun
      obtain ⟨⟨e, s'⟩, hloop, rfl⟩ := Option.map_eq_some_iff.mp hrun
      obtain ⟨last, hvisit, hstep⟩ := (Loop.Exits.of_run hloop).last
      have hattached := attached_of_lookup hmode
      have hsync : TargetInSync call last := hvisit.invariant (TargetInSync call)
        (initial_targetInSync (checkPrompt_ok_iff.mp hcheck).1 members draftState)
        fun before _ hbefore hnext => step_inSync (hattached before) hbefore hnext
      have hown : OwnExit e → e ≠ .threw .outOfBounds := by
        rintro (rfl | rfl) <;> simp
      change e ≠ .threw .outOfBounds
      have hiterates := step_iterates (hattached last)
      rw [hstep] at hiterates
      generalize hout : (Sum.inr (e, s') : LoopState K ⊕ (Exit × LoopState K)) = out at hiterates
      cases hiterates with
      | ended => cases hout; simp
      | gaveUp => cases hout
      | lookupThrew hrunning hdrafting hphase =>
          cases hout
          rintro ⟨⟩
          exact (hbounds _ hvisit hrunning hdrafting).2.1 _ hphase
      | plain => exact hown ((emit_spec call _ _).1 e s' hout.symm).1
      | @verified draft drafted hrunning hdrafting hphase hne hdrafts =>
          have hsame := hdrafts.untouched
          have hverified := verifyPhase_verified (hsync.of_untouched hsame)
            (hsame.running.mpr hrunning) hne
          rw [← hout] at hverified
          generalize hout' : (Sum.inr (e, s') : LoopState K ⊕ (Exit × LoopState K)) = out'
            at hverified
          cases hverified with
          | outOfRange hverdict =>
              exact absurd hverdict
                ((hbounds last hvisit hrunning hdrafting).2.2 draft drafted hphase).2
          | rollbackFailed =>
              cases hout'
              simp
          | synced =>
              exact hown ((emit_spec call _ _).1 e s' (emitVerified_leaves hout'.symm)).1

end Call

end Reame.Speculative
