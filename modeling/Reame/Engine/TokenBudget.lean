import Reame.Engine.ResponseKey

/-!
# The tokens behind a reply

A callback is handed pieces of text: the prompt, if it is echoed, and one piece for every
token that the model generates.  The tokens themselves stay with the engine: the classic
loop appends them to the conversation, the decoder and the scheduler keep what they have
delivered.  `Generated` reads them there, and the pieces of a generation that nobody cuts
short are the echo and these tokens (`produces_iff_generated`).

Each loop tests `max_tokens` at its own place, and each keeps to it, at every temperature
(`length_le_of_generated`): the classic loop counts down, the decoder stops emitting in the
middle of a verified draft, and a dialogue of the scheduler ends with its last token,
whatever other requests do.
-/

namespace Reame.Engine

open Reame.Core Reame.Cache Reame.Speculative

variable {K : Type*} [Field K] [LinearOrder K]

namespace ReameEngine

variable (engine : ReameEngine K)

/-- A generation from these tokens, with a callback that takes everything, may end without an
error after the model has generated the given ones. -/
def GeneratesTokens (tokens : List TokenId) (echoed : List Bytes) (gen : GenerationConfig K)
    (generated : List TokenId) : Prop :=
  match engine.path with
  | .classic backend =>
      ∃ memory : ClassicMemory, TrustedCache engine.modelTag backend memory.cache tokens ∧
        let after := classicGenerate engine.lib backend memory tokens echoed gen takeAll
        after.1.error = none ∧ after.2.contextTokens = tokens ++ generated
  | .speculative decoder =>
      let call := engine.decoderCall decoder gen echoed takeAll
      ∃ self draftState,
        (∀ visited, Loop.Visits call.step (call.initial self draftState tokens) visited →
          call.DraftLengthOk visited) ∧
        ∃ result enough, (∀ fuel ≥ enough,
            call.generateStream fuel self draftState tokens = some result) ∧
          result.exit = .returned ∧ result.delivered = generated
  | .parallel backend nParallel =>
      let scheduler := engine.scheduler backend nParallel
      ∃ events id s later,
        scheduler.submit (scheduler.run scheduler.initial events) tokens gen
          (some (engine.onToken echoed takeAll)) = .ok (id, s) ∧
        Scheduler.finished (scheduler.run s later) id = true ∧
        Scheduler.error (scheduler.run s later) id = none ∧
        Scheduler.received (scheduler.run s later) id = generated

/-- The model may generate these tokens for the request. -/
def Generated (prompt : Bytes) (gen : GenerationConfig K) (generated : List TokenId) : Prop :=
  match openRequest engine.backend prompt gen takeAll with
  | .inl _ => False
  | .inr (tokens, echoed) => engine.GeneratesTokens tokens echoed gen generated

/-- The pieces for the prompt and for the tokens. -/
def piecesOf (prompt : Bytes) (gen : GenerationConfig K) (generated : List TokenId) : List Bytes :=
  (if gen.echoPrompt then [prompt] else []) ++ generated.map engine.backend.tokenPiece

end ReameEngine

/-! ## The classic loop -/

/-- The tokens that the loop appends are the pieces that it delivers, and no more than it has
iterations left. -/
theorem classicLoop_generated (lib : StdLib K) (backend : StatefulBackend K) :
    ∀ (left : ℕ) (s : ClassicState K), (classicLoop lib backend takeAll left s).1.error = none →
      ∃ generated, generated.length ≤ left ∧
        (classicLoop lib backend takeAll left s).1.pieces =
          s.pieces ++ generated.map backend.tokenPiece ∧
        (classicLoop lib backend takeAll left s).2.tokens = s.tokens ++ generated := by
  intro left
  induction left with
  | zero => exact fun s _ => ⟨[], le_rfl, by simp [classicLoop], by simp [classicLoop]⟩
  | succ left ih =>
      intro s hok
      rw [classicLoop] at hok ⊢
      dsimp only [takeAll] at hok ⊢
      split at hok
      · cases hok
      · rename_i next sampler hsample
        split at hok
        · rename_i heog
          rw [if_pos heog]
          exact ⟨[], Nat.zero_le _, by simp, by simp⟩
        · rename_i heog
          rw [if_neg heog]
          split at hok
          · rename_i hfull
            rw [if_pos hfull]
            exact ⟨[next], by simp, by simp, by simp⟩
          · rename_i hroom
            rw [if_neg hroom]
            split at hok
            · rename_i hlast
              rw [if_pos hlast]
              exact ⟨[next], by simp, by simp, by simp⟩
            · rename_i hmore
              rw [if_neg hmore]
              split at hok
              · cases hok
              · obtain ⟨generated, hlength, hpieces, htokens⟩ := ih _ hok
                refine ⟨next :: generated, by simpa using hlength, ?_, ?_⟩
                · rw [hpieces]
                  simp
                · rw [htokens]
                  simp

end Reame.Engine

/-! ## The decoder -/

namespace Reame.Speculative.Call

open Reame.Core

variable {K : Type*} [Field K] [LinearOrder K] {call : Call K}

/-- The tokens delivered are those counted, and they are within the budget. -/
structure WithinBudget (call : Call K) (s : LoopState K) : Prop where
  counted : s.delivered.length = s.emitted
  within : s.emitted ≤ call.maxTokens

/-- So they are after an iteration, and at the end no more has been delivered. -/
def StaysWithin (call : Call K) : LoopState K ⊕ (Exit × LoopState K) → Prop
  | .inl s => WithinBudget call s
  | .inr out => out.2.delivered.length ≤ call.maxTokens

/-- Emission stops at the token that spends the budget. -/
theorem emit_within (tokens : List TokenId) {s : LoopState K}
    (hcounted : s.delivered.length = s.emitted) (hroom : s.emitted < call.maxTokens) :
    StaysWithin call (call.emit tokens s) := by
  induction tokens generalizing s with
  | nil => exact ⟨hcounted, hroom.le⟩
  | cons t rest ih =>
      have hone : (s.delivered ++ [t]).length = s.emitted + 1 := by
        rw [List.length_append, List.length_singleton, hcounted]
      rw [emit]
      split
      · exact hcounted.trans_le hroom.le
      · split
        · exact hone.trans_le hroom
        · exact hone.trans_le hroom
        · split
          · exact ⟨hone, hroom⟩
          · rename_i hmore
            exact ih hone (not_le.mp fun hspent => hmore (.inl hspent))

/-- Where drafting leads to. -/
def Drafted.state : Drafted K → LoopState K
  | .proposed _ s => s
  | .retry s => s
  | .threw _ s => s

variable (call) in
/-- Drafting delivers nothing. -/
theorem draftPhase_delivers (s : LoopState K) :
    (call.draftPhase s).state.delivered = s.delivered ∧
      (call.draftPhase s).state.emitted = s.emitted := by
  unfold draftPhase modelDraftPhase lookupDraftPhase
  dsimp only
  split
  · split
    · exact ⟨rfl, rfl⟩
    · split
      · exact ⟨rfl, rfl⟩
      · split <;> exact ⟨rfl, rfl⟩
  · split
    · exact ⟨rfl, rfl⟩
    · split
      · exact ⟨rfl, rfl⟩
      · split <;> exact ⟨rfl, rfl⟩

variable (call) in
/-- Neither does the synchronisation after a verification. -/
theorem syncKv_delivers (drafted : ℕ) (result : VerificationResult) (s : LoopState K) :
    (call.syncKv drafted result s).2.delivered = s.delivered ∧
      (call.syncKv drafted result s).2.emitted = s.emitted := by
  rcases call.syncKv_spec drafted result s with ⟨draftState, heq, -⟩ | ⟨heq, -⟩ <;>
    · rw [heq]
      exact ⟨rfl, rfl⟩

theorem verifyPhase_within (draft : DraftResult K) {s : LoopState K}
    (hcounted : s.delivered.length = s.emitted) (hroom : s.emitted < call.maxTokens) :
    StaysWithin call (call.verifyPhase draft s) := by
  rw [verifyPhase]
  split
  · exact hcounted.trans_le hroom.le
  · rename_i result targetKv acceptRng hverdict
    dsimp only
    obtain ⟨hdelivered, hemitted⟩ := call.syncKv_delivers draft.tokens.length result
      (countVerified { s with targetKv, acceptRng } draft.tokens.length result)
    split
    · rename_i fault synced hsynced
      rw [hsynced] at hdelivered
      exact (congrArg List.length hdelivered).trans_le (hcounted.trans_le hroom.le)
    · rename_i synced hsynced
      rw [hsynced] at hdelivered hemitted
      have hafter : StaysWithin call (call.emit result.newTokens synced) :=
        emit_within result.newTokens
          ((congrArg List.length hdelivered).trans (hcounted.trans hemitted.symm))
          (hemitted.trans_lt hroom)
      split
      · rename_i out hemit
        rw [hemit] at hafter
        exact hafter
      · rename_i after hemit
        rw [hemit] at hafter
        exact ⟨hafter.counted, hafter.within⟩

/-- One iteration. -/
theorem step_within {s : LoopState K} (hwithin : WithinBudget call s) :
    StaysWithin call (call.step s) := by
  rw [step]
  by_cases hrunning : call.Running s
  · rw [if_pos hrunning]
    obtain ⟨hguard, -⟩ := call.vocabGuard_untouched s
    have hcounted : (call.vocabGuard s).delivered.length = (call.vocabGuard s).emitted := by
      rw [hguard.delivered, hguard.emitted]
      exact hwithin.counted
    have hroom : (call.vocabGuard s).emitted < call.maxTokens :=
      hguard.emitted.trans_lt hrunning.1
    dsimp only
    split
    · obtain ⟨hdelivered, hemitted⟩ := call.draftPhase_delivers (call.vocabGuard s)
      rw [← hemitted, ← hdelivered] at hcounted
      rw [← hemitted] at hroom
      split
      · rename_i drafted hphase
        rw [hphase] at hcounted hroom
        exact ⟨hcounted, hroom.le⟩
      · rename_i fault drafted hphase
        rw [hphase] at hcounted hroom
        exact hcounted.trans_le hroom.le
      · rename_i draft drafted hphase
        rw [hphase] at hcounted hroom
        exact verifyPhase_within draft hcounted hroom
    · rw [plainStep]
      dsimp only
      split
      · exact hcounted.trans_le hroom.le
      · exact emit_within _ hcounted hroom
  · rw [if_neg hrunning]
    exact hwithin.counted.trans_le hwithin.within

/-- A call delivers no more than the budget. -/
theorem exits_within {s s' : LoopState K} {e : Exit} (hexits : Loop.Exits call.step s (e, s'))
    (hwithin : WithinBudget call s) : s'.delivered.length ≤ call.maxTokens := by
  obtain ⟨last, hvisit, hleave⟩ := hexits.last
  have hlast : WithinBudget call last :=
    hvisit.invariant (WithinBudget call) hwithin fun before after hbefore hstep => by
      have hafter := step_within hbefore
      rw [hstep] at hafter
      exact hafter
  have hend := step_within hlast
  rw [hleave] at hend
  exact hend

theorem generateStream_within {fuel : ℕ} {self : DecoderState} {draftState : DraftState}
    {prompt : List TokenId} {result : StreamResult}
    (hrun : call.generateStream fuel self draftState prompt = some result) :
    result.delivered.length ≤ call.maxTokens := by
  rw [generateStream] at hrun
  split at hrun
  · cases hrun
    exact Nat.zero_le _
  · obtain ⟨⟨e, s'⟩, hloop, rfl⟩ := Option.map_eq_some_iff.mp hrun
    exact exits_within (.of_run hloop) ⟨rfl, Nat.zero_le _⟩

end Reame.Speculative.Call

/-! ## The scheduler -/

namespace Reame.Core.Scheduler

variable {K : Type*} [Field K] [LinearOrder K] {scheduler : Scheduler K}

/-! ### What a request keeps -/

section Keeps

variable {going : Dialogue K → Prop} {gone : Outcome → Prop} {id : ℕ}
  (hstays : ∀ before after, going before → scheduler.advance before = .inl after → going after)
  (hleaves : ∀ before outcome, going before → scheduler.advance before = .inr outcome →
    gone outcome)
  (hrefused : ∀ before fault, going before → gone ⟨some fault, before.delivered⟩)
include hstays hleaves hrefused

/-- What every turn of a request keeps is kept by a batch, whether or not it is refused. -/
theorem keeps_serve {s : SchedulerState K} (hcoherent : Coherent scheduler s)
    (hkeeps : (service s).Keeps going gone id) : (service (scheduler.serve s)).Keeps going gone id := by
  cases hbatch : scheduler.backend.refuses s.kv (s.active.map sliceOf) with
  | none =>
      rw [(serve_ok hcoherent hbatch).2]
      exact hkeeps.tick hstays hleaves _
  | some fault =>
      rw [(serve_refused hcoherent hbatch).2.2]
      refine hkeeps.tick (fun before after _ hadvance => by cases hadvance) ?_ _
      intro before outcome hbefore hadvance
      cases hadvance
      exact hrefused before fault hbefore

theorem keeps_apply {s : SchedulerState K} (hcoherent : Coherent scheduler s)
    (hkeeps : (service s).Keeps going gone id) (event : Event K) :
    (service (scheduler.apply s event)).Keeps going gone id := by
  cases event with
  | submit prompt gen onToken =>
      rcases submit_cases scheduler s prompt gen onToken with
        ⟨fault, hsubmit⟩ | ⟨callback, s', -, hsubmit, hservice, -⟩
      · rw [apply, hsubmit]
        exact hkeeps
      · rw [apply, hsubmit]
        dsimp only
        rw [hservice]
        exact hkeeps.submit _
  | step =>
      obtain ⟨hadmitted, hservice⟩ := admit_spec hcoherent
      rw [← hservice] at hkeeps
      rw [apply, step]
      dsimp only
      split
      · exact hkeeps
      · exact keeps_serve hstays hleaves hrefused hadmitted hkeeps

/-- It is kept through everything the scheduler is called with. -/
theorem keeps_run {s : SchedulerState K} (hcoherent : Coherent scheduler s)
    (hkeeps : (service s).Keeps going gone id) (events : List (Event K)) :
    (service (scheduler.run s events)).Keeps going gone id := by
  induction events generalizing s with
  | nil => exact hkeeps
  | cons event rest ih =>
      exact ih (coherent_apply hcoherent event)
        (keeps_apply hstays hleaves hrefused hcoherent hkeeps event)

end Keeps

/-! ### The budget of a request -/

/-- A dialogue has counted what it has delivered, and has budget left. -/
structure HasBudget (budget : ℤ) (d : Dialogue K) : Prop where
  counted : d.delivered.length = d.emitted
  same : d.gen.maxTokens = budget
  left : (d.emitted : ℤ) < budget

theorem HasBudget.advance {budget : ℤ} {d d' : Dialogue K} (hbudget : HasBudget budget d)
    (hadvance : scheduler.advance d = .inl d') : HasBudget budget d' := by
  obtain ⟨next, -, hdelivered, -, hgen, hemitted, hleft⟩ := advance_inl hadvance
  refine ⟨?_, by rw [hgen]; exact hbudget.same, by rw [← hbudget.same]; exact hleft⟩
  rw [hdelivered, hemitted, List.length_append, List.length_singleton, hbudget.counted]

/-- The last turn delivers at most one more token. -/
theorem length_delivered_of_advance {d : Dialogue K} {outcome : Outcome}
    (hadvance : scheduler.advance d = .inr outcome) :
    outcome.delivered.length ≤ d.delivered.length + 1 := by
  unfold Scheduler.advance at hadvance
  split at hadvance
  · cases hadvance
    exact Nat.le_succ _
  · split at hadvance
    · cases hadvance
      exact Nat.le_succ _
    · split at hadvance
      · cases hadvance
        simp
      · cases hadvance
        simp
      · split at hadvance
        · cases hadvance
          simp
        · cases hadvance

/-- An accepted request with a budget never gets more tokens than it, whatever the scheduler is
called with besides, and also when a batch fails. -/
theorem received_within {s s' : SchedulerState K} (hcoherent : Coherent scheduler s)
    {prompt : List TokenId} {gen : GenerationConfig K} {onToken : Option TokenCallback} {id : ℕ}
    (hbudget : 1 ≤ gen.maxTokens)
    (hsubmit : scheduler.submit s prompt gen onToken = .ok (id, s')) (later : List (Event K))
    (hfinished : finished (scheduler.run s' later) id = true) :
    ((received (scheduler.run s' later) id).length : ℤ) ≤ gen.maxTokens := by
  rcases submit_cases scheduler s prompt gen onToken with
    ⟨fault, hfail⟩ | ⟨callback, s'', -, hok, hservice, hkeep, -⟩
  · rw [hfail] at hsubmit
    cases hsubmit
  · obtain ⟨rfl, rfl⟩ := Prod.mk.inj (Except.ok.inj (hok.symm.trans hsubmit))
    have hfirst : HasBudget gen.maxTokens (scheduler.start prompt gen callback) :=
      ⟨rfl, rfl, by simp only [start]; omega⟩
    have hkeeps : (service (scheduler.run s'' later)).Keeps (HasBudget gen.maxTokens)
        (fun outcome => (outcome.delivered.length : ℤ) ≤ gen.maxTokens) s.nextId := by
      refine keeps_run (fun before after hbefore hadvance => hbefore.advance hadvance)
        (fun before outcome hbefore hadvance => ?_) (fun before fault hbefore => ?_)
        (hkeep hcoherent) (hservice ▸ hcoherent.numbered.keeps_submit _ hfirst) later
      · have hlast := length_delivered_of_advance hadvance
        have hleft := hbefore.left
        rw [hbefore.counted] at hlast
        omega
      · have hleft := hbefore.left
        rw [← hbefore.counted] at hleft
        exact hleft.le
    obtain ⟨outcome, hlookup⟩ := Option.isSome_iff_exists.mp hfinished
    rw [received, hlookup]
    obtain ⟨before, after, hdone, -⟩ := List.lookup_eq_some_iff.mp hlookup
    refine hkeeps.done outcome ?_
    show (s.nextId, outcome) ∈ (scheduler.run s'' later).done
    rw [hdone]
    exact List.mem_append_right _ (List.mem_cons_self ..)

end Reame.Core.Scheduler

/-! ## The three paths -/

namespace Reame.Engine

open Reame.Core Reame.Cache Reame.Speculative

variable {K : Type*} [Field K] [LinearOrder K]

theorem classicGenerate_generated (lib : StdLib K) (backend : StatefulBackend K)
    {memory : ClassicMemory} {tokens : List TokenId} {echoed : List Bytes}
    {gen : GenerationConfig K}
    (hok : (classicGenerate lib backend memory tokens echoed gen takeAll).1.error = none) :
    ∃ generated, generated.length ≤ gen.maxTokens.toNat ∧
      (classicGenerate lib backend memory tokens echoed gen takeAll).1 =
        ⟨none, echoed ++ generated.map backend.tokenPiece⟩ ∧
      (classicGenerate lib backend memory tokens echoed gen takeAll).2.contextTokens =
        tokens ++ generated := by
  unfold classicGenerate at hok ⊢
  split at hok
  · cases hok
  · rename_i logits prefilled hprefill
    dsimp only at hok ⊢
    obtain ⟨generated, hlength, hpieces, htokens⟩ := classicLoop_generated lib backend _ _ hok
    refine ⟨generated, hlength, ?_, ?_⟩
    · rw [← hpieces, ← hok]
    · rw [if_pos hok, htokens]

namespace ReameEngine

variable {engine : ReameEngine K} {prompt : Bytes} {gen : GenerationConfig K}

omit [Field K] [LinearOrder K] in
theorem openRequest_takeAll {backend : LlamaBackend K} {prompt : Bytes} {gen : GenerationConfig K} :
    openRequest backend prompt gen takeAll =
      match checkPrompt backend.contextLength (backend.tokenize prompt true) with
      | some fault => .inl ⟨some fault, []⟩
      | none => .inr (backend.tokenize prompt true, if gen.echoPrompt then [prompt] else []) := by
  unfold openRequest takeAll
  dsimp only
  cases checkPrompt backend.contextLength (backend.tokenize prompt true) with
  | some fault => rfl
  | none => cases gen.echoPrompt <;> rfl

/-- A generation without an error delivers one piece for each of its tokens, after what has been
echoed. -/
theorem generates_iff_generatesTokens {tokens : List TokenId} {echoed pieces : List Bytes} :
    engine.Generates tokens echoed gen takeAll ⟨none, pieces⟩ ↔
      ∃ generated, engine.GeneratesTokens tokens echoed gen generated ∧
        pieces = echoed ++ generated.map engine.backend.tokenPiece := by
  obtain ⟨lib, modelTag, path⟩ := engine
  cases path with
  | classic backend =>
      constructor
      · rintro ⟨memory, htrusted, hreply⟩
        have hok : (classicGenerate lib backend memory tokens echoed gen takeAll).1.error = none := by
          rw [← hreply]
        obtain ⟨generated, -, heq, hcontext⟩ := classicGenerate_generated lib backend hok
        refine ⟨generated, ⟨memory, htrusted, hok, hcontext⟩, ?_⟩
        exact congrArg Reply.pieces (hreply.trans heq)
      · rintro ⟨generated, ⟨memory, htrusted, hok, hcontext⟩, rfl⟩
        obtain ⟨generated', -, heq, hcontext'⟩ := classicGenerate_generated lib backend hok
        obtain rfl := List.append_cancel_left (hcontext.symm.trans hcontext')
        exact ⟨memory, htrusted, heq.symm⟩
  | speculative decoder =>
      constructor
      · rintro ⟨self, draftState, hlengths, result, enough, hrun, hreply⟩
        have hreturned : result.exit = .returned := by
          have hfault := congrArg Reply.error hreply
          cases hexit : result.exit with
          | returned => rfl
          | threw fault =>
              rw [hexit] at hfault
              cases hfault
        exact ⟨result.delivered, ⟨self, draftState, hlengths, result, enough, hrun, hreturned, rfl⟩,
          congrArg Reply.pieces hreply⟩
      · rintro ⟨generated, ⟨self, draftState, hlengths, result, enough, hrun, hreturned, rfl⟩, rfl⟩
        refine ⟨self, draftState, hlengths, result, enough, hrun, ?_⟩
        rw [hreturned]
        rfl
  | parallel backend nParallel =>
      constructor
      · rintro ⟨events, id, s, later, hsubmit, hfinished, hreply⟩
        exact ⟨_, ⟨events, id, s, later, hsubmit, hfinished, (congrArg Reply.error hreply).symm, rfl⟩,
          congrArg Reply.pieces hreply⟩
      · rintro ⟨generated, ⟨events, id, s, later, hsubmit, hfinished, hok, rfl⟩, rfl⟩
        refine ⟨events, id, s, later, hsubmit, hfinished, ?_⟩
        rw [hok]
        rfl

/-- The pieces of a reply without an error are the echo, and one for every token that the model
has generated. -/
theorem produces_iff_generated {pieces : List Bytes} :
    engine.Produces prompt gen takeAll ⟨none, pieces⟩ ↔
      ∃ generated, engine.Generated prompt gen generated ∧
        pieces = engine.piecesOf prompt gen generated := by
  unfold Produces Generated piecesOf
  rw [openRequest_takeAll]
  cases checkPrompt engine.backend.contextLength (engine.backend.tokenize prompt true) with
  | some fault => simp
  | none => exact generates_iff_generatesTokens

/-- A model with a budget generates no more tokens than it. -/
theorem length_le_of_generated (hbudget : 1 ≤ gen.maxTokens) {generated : List TokenId}
    (hgenerated : engine.Generated prompt gen generated) :
    (generated.length : ℤ) ≤ gen.maxTokens := by
  unfold Generated at hgenerated
  split at hgenerated
  · exact hgenerated.elim
  · rename_i tokens echoed _
    obtain ⟨lib, modelTag, path⟩ := engine
    cases path with
    | classic backend =>
        obtain ⟨memory, -, hok, hcontext⟩ := hgenerated
        obtain ⟨generated', hlength, -, hcontext'⟩ := classicGenerate_generated lib backend hok
        obtain rfl := List.append_cancel_left (hcontext.symm.trans hcontext')
        omega
    | speculative decoder =>
        obtain ⟨self, draftState, -, result, enough, hrun, -, rfl⟩ := hgenerated
        have hlength : result.delivered.length ≤ gen.maxTokens.toNat :=
          Call.generateStream_within (hrun enough le_rfl)
        omega
    | parallel backend nParallel =>
        obtain ⟨events, id, s, later, hsubmit, hfinished, -, rfl⟩ := hgenerated
        exact Scheduler.received_within
          (Scheduler.coherent_run (Scheduler.coherent_initial _) events) hbudget hsubmit later
          hfinished

end ReameEngine

end Reame.Engine
