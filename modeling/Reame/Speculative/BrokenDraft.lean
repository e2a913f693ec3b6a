import Reame.Speculative.GreedyCalls
import Reame.Speculative.KvSync

/-!
# Draft models that break

A draft model may throw from any of its calls, at any point of any run.  The prefill and the
rollout are each in a `try` of their own, and what they leave half done in the draft sequence is
never looked at again: speculation is off for good.  The third place where the draft model is
called is not in a `try`: after a rejection `truncate_to` takes its sequence back.

`Survives` says that a call ends without an exception of its own and, with the temperature off,
as the plain call does.  `broken_draft_iff` says when a call does: exactly when none of its
iterations has its roll-back fail, or looks up a drafted token that the target does not have.  The
members and the draft sequence the call starts with are arbitrary, so it may be any later call of
a decoder whose draft has failed before.
-/

namespace Reame.Speculative

open Reame.Core

variable {K : Type*} [Field K] [LinearOrder K]

namespace Call

/-- The call ends, without an exception other than the callback's, and with the temperature off
it delivers what the plain path delivers, and ends as that does. -/
def Survives (call : Call K) (members : DecoderState) (draftState : DraftState)
    (prompt : List TokenId) : Prop :=
  ∃ result enough, ∀ fuel ≥ enough,
    call.generateStream fuel members draftState prompt = some result ∧ OwnExit result.exit ∧
      (call.gen.temperature ≤ 0 → ∃ plain,
        call.generateStream fuel { members with speculativeActive := false } draftState prompt =
            some plain ∧
          result.delivered = plain.delivered ∧ result.exit = plain.exit)

/-- If the iteration that starts in `s` has a draft rejected, the truncation of the draft model's
sequence does not fail. -/
def RollbackOk (call : Call K) (s : LoopState K) : Prop :=
  call.Running s → Drafting call s → ∀ draft drafted result,
    call.draftPhase s = .proposed draft drafted → call.verdict draft drafted = .ok result →
      result.correctedToken ≠ none → ¬ call.RollbackFails drafted

variable {call : Call K}

/-- A draft model that knows no more tokens than the target is never looked up out of range. -/
theorem iterationOk_of_rollbackOk {backend : FaultyBackend K} (hmode : call.modelMode = true)
    (hbackend : call.decoder.draft = some backend)
    (hvocab : backend.vocabSize ≤ call.decoder.target.vocabSize) {s : LoopState K}
    (hsync : TargetInSync call s) (hrollback : RollbackOk call s) : IterationOk call s := by
  intro hrunning hdrafting
  have hattached : Attached call s := fun _ _ => by rw [hbackend]; rfl
  refine ⟨fun fault s' hphase => ?_, fun draft drafted hphase => ?_⟩
  · have hlookup := (draftPhase_threw hattached hdrafting.active hphase).1
    rw [hmode] at hlookup
    cases hlookup
  · obtain ⟨hne, hdrafts⟩ := draftPhase_proposed hattached hdrafting.active hphase
    have hsame := hdrafts.untouched
    have hverified := verifyPhase_verified (hsync.of_untouched hsame)
      (hsame.running.mpr hrunning) hne
    generalize call.verifyPhase draft drafted = out at hverified
    cases hverified with
    | outOfRange _ _ _ _ hbad =>
        cases hdrafts with
        | model _ hbackend' _ hrolled =>
            rw [hbackend] at hbackend'
            cases hbackend'
            exact absurd (hrolled.inVocab.mono hvocab) hbad
        | lookup hlookup =>
            rw [hmode] at hlookup
            cases hlookup
    | rollbackFailed hverdict _ _ hcorrected _ hfails =>
        exact absurd hfails (hrollback hrunning hdrafting _ _ _ hphase hverdict hcorrected)
    | synced hverdict _ hfails => exact ⟨_, hverdict, hfails⟩

/-- An exception of the call's own is not survived. -/
theorem not_survives_of_exits {self : DecoderState} {draftState : DraftState}
    {prompt : List TokenId} (hcheck : call.checkPrompt prompt = .ok ()) {fault : Fault}
    {s : LoopState K} (hexits : Loop.Exits call.step (call.initial self draftState prompt)
      (.threw fault, s)) (hfault : fault ≠ .callback) : ¬ call.Survives self draftState prompt := by
  rintro ⟨result, enough, hsurvives⟩
  obtain ⟨hne, hfits⟩ := checkPrompt_ok_iff.mp hcheck
  obtain ⟨enough', hrun⟩ := generateStream_of_exits hne hfits hexits
  obtain ⟨hresult, hown, -⟩ := hsurvives (max enough enough') (le_max_left _ _)
  rw [hrun _ (le_max_right _ _), Option.some.injEq] at hresult
  subst hresult
  rcases hown with hreturned | hcallback
  · cases hreturned
  · cases hcallback
    exact hfault rfl

variable [IsStrictOrderedRing K]

/-- Iterations that all reach their emission make up a call that survives. -/
theorem survives_of_ok {self : DecoderState} {draftState : DraftState} {prompt : List TokenId}
    (hattached : call.modelMode = true → call.decoder.draft.isSome)
    (hcheck : call.checkPrompt prompt = .ok ())
    (hok : ∀ s, Loop.Visits call.step (call.initial self draftState prompt) s →
      IterationOk call s) : call.Survives self draftState prompt := by
  obtain ⟨hne, hfits⟩ := checkPrompt_ok_iff.mp hcheck
  have hgoing : ∀ members, Going call (call.initial members draftState prompt) :=
    fun _ => Going.initial hne draftState fun hmode _ => hattached hmode
  obtain ⟨e, s, hexits⟩ := exists_exits_of_going call (hgoing self)
  obtain ⟨enough, hrun⟩ := generateStream_of_exits hne hfits hexits
  -- The plain call: speculation is off, and stays off.
  set off : DecoderState := { self with speculativeActive := false }
  have hoff : (call.initial off draftState prompt).self.speculativeActive ≠ true := by
    intro hactive
    cases (draftPrefill_adapts call prompt (prompt.length - 1) off draftState).active hactive
  have hplainOk : ∀ visited, Loop.Visits call.step (call.initial off draftState prompt) visited →
      IterationOk call visited := by
    intro visited hvisit _ hdrafting
    have hinactive := hvisit.invariant (fun s => s.self.speculativeActive = false)
      (Bool.eq_false_iff.mpr hoff) fun _ _ hbefore hstep => step_inactive hbefore hstep
    rw [hdrafting.active] at hinactive
    cases hinactive
  obtain ⟨e', s', hplain⟩ := exists_exits_of_going call (hgoing off)
  obtain ⟨enough', hplainRun⟩ := generateStream_of_exits hne hfits hplain
  refine ⟨call.resultOf (e, s), max enough enough', fun fuel hfuel =>
    ⟨hrun fuel (le_of_max_le_left hfuel), ownExit_of_ok (hgoing self) hok hexits, fun htemp =>
      ⟨call.resultOf (e', s'), hplainRun fuel (le_of_max_le_right hfuel), ?_⟩⟩⟩
  -- Both are sequential greedy decoding from the same prompt.
  have hsame : (e, s.progress) = (e', s'.progress) := by
    obtain ⟨_, _, hexits₁, hgreedy₁⟩ := exists_greedy_exits htemp (hgoing self).attached
      (initial_inSync hne self draftState) hok
    obtain ⟨_, _, hexits₂, hgreedy₂⟩ := exists_greedy_exits htemp (hgoing off).attached
      (initial_inSync hne off draftState) hplainOk
    cases hexits.unique hexits₁
    cases hplain.unique hexits₂
    exact hgreedy₁.unique hgreedy₂
  exact ⟨congrArg (fun out => out.2.delivered) hsame, congrArg Prod.fst hsame⟩

/-- With a draft model whose calls may fail, a call survives exactly when every iteration reaches
its emission: it looks up no drafted token that the target does not have, and the truncation after
a rejection does not fail.  For a draft model that knows no more tokens than the target only the
truncation is left. -/
theorem broken_draft_iff {backend : FaultyBackend K} {self : DecoderState} {draftState : DraftState}
    {prompt : List TokenId} (hmode : call.modelMode = true)
    (hbackend : call.decoder.draft = some backend) (hcheck : call.checkPrompt prompt = .ok ()) :
    (call.Survives self draftState prompt ↔
      ∀ s, Loop.Visits call.step (call.initial self draftState prompt) s → IterationOk call s) ∧
    (backend.vocabSize ≤ call.decoder.target.vocabSize →
      (call.Survives self draftState prompt ↔
        ∀ s, Loop.Visits call.step (call.initial self draftState prompt) s →
          RollbackOk call s)) := by
  have hattached : call.modelMode = true → call.decoder.draft.isSome := fun _ => by
    rw [hbackend]
    rfl
  have hgoing : Going call (call.initial self draftState prompt) :=
    Going.initial (checkPrompt_ok_iff.mp hcheck).1 draftState fun hmode _ => hattached hmode
  have hsurvives : call.Survives self draftState prompt ↔
      ∀ s, Loop.Visits call.step (call.initial self draftState prompt) s →
        IterationOk call s := by
    refine ⟨fun hsurvives s hvisit => ?_, survives_of_ok hattached hcheck⟩
    by_contra hbad
    obtain ⟨fault, s', hexits, hfault⟩ := exits_of_not_ok hgoing hvisit hbad
    exact not_survives_of_exits hcheck hexits hfault hsurvives
  refine ⟨hsurvives, fun hvocab => hsurvives.trans ⟨fun hok s hvisit => ?_, fun hok s hvisit => ?_⟩⟩
  · intro hrunning hdrafting draft drafted result hphase hverdict
    obtain ⟨result', hverdict', hrollback⟩ := (hok s hvisit hrunning hdrafting).2 _ _ hphase
    rw [hverdict] at hverdict'
    cases hverdict'
    exact hrollback
  · exact iterationOk_of_rollbackOk hmode hbackend hvocab (hgoing.visits hvisit).sync (hok s hvisit)

/-- A draft model none of whose calls works costs nothing. -/
theorem broken_draft_never_answers :
    let call := pairCall .rational 4 Nat.two_pos Nat.two_pos fun _ => true
    call.decoder.construct = .ok ⟨1, true, {}⟩ ∧
      call.Survives ⟨1, true, {}⟩ ⟨[], 0⟩ [0] := by
  intro call
  refine ⟨by decide, ((@broken_draft_iff ℚ _ _ call _ _ ⟨1, true, {}⟩ ⟨[], 0⟩ [0] rfl rfl
    (by decide)).1).mpr fun s hvisit _ hdrafting => ?_⟩
  -- The prefill fails, so no iteration drafts.
  have hinactive := hvisit.invariant (fun s => s.self.speculativeActive = false) (by decide)
    fun _ _ hbefore hstep => step_inactive hbefore hstep
  rw [hdrafting.active] at hinactive
  cases hinactive

/-- A draft model whose third call fails, which is the `truncate_to` after its first proposal has
been rejected, takes the generation with it. -/
theorem rollback_failure_throws :
    let call := pairCall .rational 4 Nat.two_pos Nat.two_pos (· == 2)
    call.decoder.construct = .ok ⟨1, true, {}⟩ ∧
      (call.generateStream 1 ⟨1, true, {}⟩ ⟨[], 0⟩ [0]).map
          (fun result => (result.delivered, result.exit)) =
        some ([], .threw (.modelError "draft backend failure")) ∧
      (call.generateStream 3 ⟨1, false, {}⟩ ⟨[], 0⟩ [0]).map
          (fun result => (result.delivered, result.exit)) = some ([0, 0], .returned) ∧
      ¬ call.Survives ⟨1, true, {}⟩ ⟨[], 0⟩ [0] := by
  intro call
  refine ⟨by decide, by decide +kernel, by decide +kernel, ?_⟩
  have hrun : (Loop.run call.step 1 (call.initial ⟨1, true, {}⟩ ⟨[], 0⟩ [0])).map Prod.fst =
      some (.threw (.modelError "draft backend failure")) := by decide +kernel
  obtain ⟨⟨e, s⟩, hrun, rfl⟩ := Option.map_eq_some_iff.mp hrun
  exact not_survives_of_exits (by decide) (.of_run hrun) (by decide)

end Call

end Reame.Speculative
