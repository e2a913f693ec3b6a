import Reame.Speculative.GreedySteps

/-!
# Speculation does not change a greedy generation

A whole call of `generate_stream` with the temperature off, compared with the same
call of the same decoder with speculation off.  `Agrees` says that both end, in the
same way, having delivered the same tokens.

`agrees_iff` characterises it: the two calls agree exactly when no iteration truncates
a structural proposal to a negative length.  A draft model never reaches that branch,
and neither does a lookup decoder whose draft lengths are not negative
(`DraftLengthsInRange`); with `min_draft_tokens < 0` it is reachable, and the call
dies with `std::length_error`.
-/

namespace Reame.Speculative

open Reame.Core

variable {K : Type*} [Field K] [LinearOrder K] [IsStrictOrderedRing K]

namespace Call

variable {call : Call K}

/-! ## Sources in the vocabulary -/

variable (call) in
omit [IsStrictOrderedRing K] in
/-- With a draft length that is not negative the lookup sources answer. -/
theorem lookupDraft_ok (history : List TokenId) {n : ℤ} (hn : 0 ≤ n) :
    ∃ tokens, call.lookupDraft history n = .ok tokens := by
  unfold lookupDraft
  split
  · exact ⟨_, rfl⟩
  · dsimp only
    rw [if_neg (not_lt.mpr hn)]
    split <;> exact ⟨_, rfl⟩

omit [IsStrictOrderedRing K] in
/-- With a negative draft length they throw: history and archive have nothing to
offer, and the structural proposal is resized to it. -/
theorem lookupDraft_negative (history : List TokenId) {n : ℤ} (hn : n < 0) :
    call.lookupDraft history n = .error .lengthError := by
  have hretrieved : call.retrievedDraft history n = [] := by
    have hfound : ∀ maxNgram minNgram, findDraft maxNgram minNgram history n = [] :=
      fun _ _ => if_pos hn.le
    unfold retrievedDraft
    simp only [hfound, if_true]
    split
    · rename_i archive _
      have := archive.length_draft history n
      exact List.length_eq_zero_iff.mp (by omega)
    · rfl
  rw [lookupDraft, if_neg (not_not.mpr hretrieved)]
  dsimp only
  rw [if_pos (by omega), if_pos hn]

omit [LinearOrder K] [IsStrictOrderedRing K] in
/-- A looked-up draft inside the vocabulary gets its one-hots. -/
theorem oneHotProbs_ok {nVocab : ℕ} {tokens : List TokenId}
    (hvalid : ∀ t ∈ tokens, 0 ≤ t ∧ t < (nVocab : ℤ)) :
    ∃ probs, oneHotProbs (K := K) nVocab tokens = .ok probs := by
  induction tokens with
  | nil => exact ⟨[], rfl⟩
  | cons t rest ih =>
      obtain ⟨probs, hprobs⟩ := ih fun u hu => hvalid u (List.mem_cons_of_mem _ hu)
      refine ⟨oneHot nVocab t.toNat :: probs, ?_⟩
      rw [oneHotProbs] at hprobs ⊢
      rw [List.mapM_cons, hprobs, if_pos (hvalid t (List.mem_cons_self ..))]
      rfl

omit [LinearOrder K] [IsStrictOrderedRing K] in
theorem OneHotDraft.inVocab {n : ℕ} {tokens : List TokenId} {probs : List (List K)}
    (hdraft : OneHotDraft n tokens probs) : DraftInVocab n tokens probs := by
  refine List.Forall₂.imp ?_ hdraft
  rintro t q ⟨i, m, hin, him, rfl, rfl⟩
  exact ⟨Int.natCast_nonneg i, Int.ofNat_lt.mpr hin, by rw [length_oneHot]; exact Int.ofNat_lt.mpr him⟩

/-- With such sources an iteration that does not truncate to a negative length reaches its
emission. -/
theorem iterationOk_of_sources {prompt : List TokenId} (htemp : call.gen.temperature ≤ 0)
    (hsources : SourcesInVocab call prompt) {s : LoopState K} (hsync : InSync call prompt s)
    (hlength : call.DraftLengthOk s) : IterationOk call s := by
  intro hrunning hdrafting
  have hattached : Attached call s := fun hmode _ => hsources.attached hmode
  obtain ⟨generated, hhistory, hgenerated⟩ := hsync.generated
  refine ⟨fun fault s' hphase => ?_, fun draft drafted hphase => ?_⟩
  · obtain ⟨hmode, hfault⟩ := draftPhase_threw hattached hdrafting.active hphase
    -- The lookup sources answer, with tokens of the vocabulary.
    obtain ⟨tokens, htokens⟩ := lookupDraft_ok call s.history
      (hlength hrunning hmode hdrafting.active hdrafting.skip)
    obtain ⟨probs, hprobs⟩ := oneHotProbs_ok (K := K)
      (hsources.lookup hmode generated hgenerated _ tokens (hhistory ▸ htokens))
    rcases hfault with hlookup | ⟨tokens', htokens', hprobs'⟩
    · rw [htokens] at hlookup
      cases hlookup
    · rw [htokens] at htokens'
      cases htokens'
      rw [hprobs] at hprobs'
      cases hprobs'
  · obtain ⟨hne, hdrafts⟩ := draftPhase_proposed hattached hdrafting.active hphase
    have hvocab : DraftInVocab call.decoder.target.vocabSize draft.tokens draft.probs := by
      have hgreedy := hphase
      rw [draftPhase] at hgreedy
      by_cases hmode : call.modelMode = true
      · obtain ⟨backend, hbackend⟩ := Option.isSome_iff_exists.mp (hsources.attached hmode)
        rw [if_pos hmode] at hgreedy
        exact OneHotDraft.inVocab (modelDraftPhase_greedy htemp hbackend
          (hsources.model hmode backend hbackend) hsync.sampler hgreedy)
      · rw [if_neg hmode] at hgreedy
        exact OneHotDraft.inVocab (lookupDraftPhase_greedy hgreedy)
    have hsame := hdrafts.untouched
    have hverified := verifyPhase_verified (hsync.toTarget.of_untouched hsame)
      (hsame.running.mpr hrunning) hne
    generalize call.verifyPhase draft drafted = out at hverified
    cases hverified with
    | outOfRange _ _ _ _ hbad => exact absurd hvocab hbad
    | rollbackFailed _ _ _ _ _ hfailed =>
        obtain ⟨hmode, backend, hbackend, hfails⟩ := hfailed
        rw [hsources.faultFree hmode backend hbackend] at hfails
        cases hfails
    | synced hverdict _ hrollback => exact ⟨_, hverdict, hrollback⟩

/-! ## Whole calls -/

/-- The loop refines greedy decoding as long as no iteration truncates to a negative
length. -/
theorem exists_exits {prompt : List TokenId} (htemp : call.gen.temperature ≤ 0)
    (hsources : SourcesInVocab call prompt) {s : LoopState K} (hsync : InSync call prompt s)
    (hlength : ∀ visited, Loop.Visits call.step s visited → call.DraftLengthOk visited) :
    ∃ e s', Loop.Exits call.step s (e, s') ∧
      Loop.Exits call.greedyStep s.progress (e, s'.progress) := by
  have hattached : ∀ visited, Attached call visited := fun _ hmode _ => hsources.attached hmode
  have hvisited : ∀ visited, Loop.Visits call.step s visited → InSync call prompt visited := by
    intro visited hvisit
    induction hvisit with
    | start => exact hsync
    | next hvisit hstep ih =>
        exact ((step_advances htemp (hattached _) ih (iterationOk_of_sources htemp hsources ih
          (hlength _ hvisit))).2 _ hstep).sync
  exact exists_greedy_exits htemp (hattached s) hsync fun visited hvisit =>
    iterationOk_of_sources htemp hsources (hvisited visited hvisit) (hlength visited hvisit)

omit [IsStrictOrderedRing K] in
/-- A visited state that does truncate to a negative length ends the call with
`std::length_error`. -/
theorem exits_of_negative {s visited : LoopState K} (hvisit : Loop.Visits call.step s visited)
    (hbad : ¬ call.DraftLengthOk visited) :
    ∃ s', Loop.Exits call.step s (.threw .lengthError, s') := by
  simp only [DraftLengthOk, not_forall, not_le] at hbad
  obtain ⟨hrunning, hmode, hactive, hskip, hnegative⟩ := hbad
  refine ⟨visited, .of_visits hvisit (.leave ?_)⟩
  have hguard : call.vocabGuard visited = visited := by simp [vocabGuard, hmode]
  rw [step, if_pos hrunning, hguard]
  simp [hactive, hskip, draftPhase, hmode, lookupDraftPhase, lookupDraft_negative _ hnegative]

omit [IsStrictOrderedRing K] in
/-- The loop is entered in sync. -/
theorem initial_inSync {prompt : List TokenId} (hne : prompt ≠ []) (self : DecoderState)
    (draftState : DraftState) : InSync call prompt (call.initial self draftState prompt) := by
  have hsync := @initial_targetInSync K _ _ call prompt hne self draftState
  exact ⟨⟨[], by simp [initial], by simp⟩, hsync.cur, hsync.kv, greedySampler_new,
    call.lib.mt19937_mem _⟩

/-- The same call of the same decoder, with speculation active and with speculation
off, ends in both cases, in the same way and with the same tokens delivered. -/
def Agrees (call : Call K) (self : DecoderState) (draftState : DraftState)
    (prompt : List TokenId) : Prop :=
  ∃ speculative plain enough, ∀ fuel ≥ enough,
    call.generateStream fuel { self with speculativeActive := true } draftState prompt =
      some speculative ∧
    call.generateStream fuel { self with speculativeActive := false } draftState prompt =
      some plain ∧
    speculative.delivered = plain.delivered ∧ speculative.exit = plain.exit

/-! ## The plain call -/

omit [IsStrictOrderedRing K] in
/-- Nothing switches speculation back on. -/
theorem step_inactive {s s' : LoopState K} (hoff : s.self.speculativeActive = false)
    (hstep : call.step s = .inl s') : s'.self.speculativeActive = false := by
  rw [step] at hstep
  split at hstep
  · have hguard : call.vocabGuard s = s := by simp [vocabGuard, hoff]
    rw [hguard] at hstep
    simp only [hoff, Bool.false_eq_true, false_and, if_false, plainStep] at hstep
    split at hstep
    · cases hstep
    · exact (emit_same hstep).active.trans hoff
  · cases hstep

omit [IsStrictOrderedRing K] in
theorem draftLengthOk_of_inactive {s visited : LoopState K}
    (hoff : s.self.speculativeActive = false) (hvisit : Loop.Visits call.step s visited) :
    call.DraftLengthOk visited := by
  have hoff' := hvisit.invariant (fun s => s.self.speculativeActive = false) hoff
    fun _ _ hbefore hstep => step_inactive hbefore hstep
  intro _ _ hactive
  rw [hoff'] at hactive
  cases hactive

omit [IsStrictOrderedRing K] in
/-- Greedy decoding ends by returning, or with what the callback threw. -/
theorem greedyStep_exit {p : Progress} {out : Exit × Progress}
    (hexits : Loop.Exits call.greedyStep p out) : out.1 ≠ .threw .lengthError := by
  induction hexits with
  | leave hstep =>
      simp only [greedyStep, deliver] at hstep
      split at hstep
      · split at hstep
        · cases hstep; simp
        · split at hstep <;> cases hstep <;> simp
      · cases hstep; simp
  | next _ _ ih => exact ih

/-! ## Agreement -/

omit [IsStrictOrderedRing K] in
theorem generateStream_of_exits {self : DecoderState} {draftState : DraftState}
    {prompt : List TokenId} {e : Exit} {s : LoopState K} (hne : prompt ≠ [])
    (hfits : prompt.length ≤ call.nCtx)
    (hexits : Loop.Exits call.step (call.initial self draftState prompt) (e, s)) :
    ∃ enough, ∀ fuel ≥ enough,
      call.generateStream fuel self draftState prompt = some (call.resultOf (e, s)) := by
  obtain ⟨enough, henough⟩ := hexits.eventually_run
  refine ⟨enough, fun fuel hfuel => ?_⟩
  rw [generateStream, checkPrompt_ok_iff.mpr ⟨hne, hfits⟩, henough fuel hfuel, Option.map_some]

/-- A greedy call agrees with its plain version exactly when no iteration truncates a
structural proposal to a negative length. -/
theorem agrees_iff {self : DecoderState} {draftState : DraftState} {prompt : List TokenId}
    (htemp : call.gen.temperature ≤ 0) (hsources : SourcesInVocab call prompt)
    (hne : prompt ≠ []) (hfits : prompt.length ≤ call.nCtx) :
    call.Agrees self draftState prompt ↔
      ∀ s, Loop.Visits call.step
        (call.initial { self with speculativeActive := true } draftState prompt) s →
          call.DraftLengthOk s := by
  have hoff : (call.initial { self with speculativeActive := false } draftState
      prompt).self.speculativeActive = false := by
    simp only [initial, draftPrefill]
    split <;> simp
  obtain ⟨e, s, hplain, hgreedy⟩ := exists_exits htemp hsources
    (initial_inSync hne { self with speculativeActive := false } draftState)
    fun _ hvisit => draftLengthOk_of_inactive hoff hvisit
  obtain ⟨enough, hrun⟩ := generateStream_of_exits hne hfits hplain
  constructor
  · rintro ⟨speculative, plain', enough', hagree⟩ visited hvisit
    by_contra hbad
    obtain ⟨s', hthrew⟩ := exits_of_negative hvisit hbad
    obtain ⟨enough'', hrun'⟩ := generateStream_of_exits hne hfits hthrew
    obtain ⟨hspec, hplain', -, hsameExit⟩ := hagree (max enough (max enough' enough''))
      (le_max_of_le_right (le_max_left _ _))
    rw [hrun' _ (le_max_of_le_right (le_max_right _ _)), Option.some.injEq] at hspec
    rw [hrun _ (le_max_left _ _), Option.some.injEq] at hplain'
    rw [← hspec, ← hplain'] at hsameExit
    exact greedyStep_exit hgreedy hsameExit.symm
  · intro hlength
    obtain ⟨e', s', hspec, hgreedy'⟩ := exists_exits htemp hsources
      (initial_inSync hne { self with speculativeActive := true } draftState) hlength
    obtain ⟨enough', hrun'⟩ := generateStream_of_exits hne hfits hspec
    have hsame : (e', s'.progress) = (e, s.progress) := hgreedy'.unique hgreedy
    refine ⟨call.resultOf (e', s'), call.resultOf (e, s), max enough enough',
      fun fuel hfuel => ?_⟩
    exact ⟨hrun' fuel (le_trans (le_max_right _ _) hfuel),
      hrun fuel (le_trans (le_max_left _ _) hfuel),
      congrArg (fun out => out.2.delivered) hsame, congrArg Prod.fst hsame⟩

/-! ## Draft lengths that stay in range -/

/-- Draft lengths that never reach the truncation with a negative value: a draft model
is used, or all lengths of the configuration and of the decoder are non-negative `int`s
that can be raised by two. -/
def DraftLengthsInRange (call : Call K) (self : DecoderState) : Prop :=
  call.modelMode = true ∨
    (0 ≤ call.decoder.config.minDraftTokens ∧ call.decoder.config.minDraftTokens ≤ 2 ^ 31 - 3 ∧
      0 ≤ call.decoder.config.maxDraftTokens ∧ call.decoder.config.maxDraftTokens ≤ 2 ^ 31 - 3 ∧
      0 ≤ self.currentDraftTokens ∧ self.currentDraftTokens ≤ 2 ^ 31 - 3 ∧ call.nCtx < 2 ^ 31)

omit [IsStrictOrderedRing K] in
/-- A lookup decoder whose lengths are not negative and can be raised by two keeps its draft
length so, and asks for drafts of such a length. -/
theorem draftLengthOk_of_lengths {self : DecoderState} {draftState : DraftState}
    {prompt : List TokenId} (hne : prompt ≠ []) (hmode : call.modelMode = false)
    (hmin : 0 ≤ call.decoder.config.minDraftTokens ∧
      call.decoder.config.minDraftTokens ≤ 2 ^ 31 - 3)
    (hmax : 0 ≤ call.decoder.config.maxDraftTokens ∧
      call.decoder.config.maxDraftTokens ≤ 2 ^ 31 - 3)
    (hcurrent : 0 ≤ self.currentDraftTokens ∧ self.currentDraftTokens ≤ 2 ^ 31 - 3)
    (hctx : call.nCtx ≤ 2 ^ 31) {s : LoopState K}
    (hvisit : Loop.Visits call.step (call.initial self draftState prompt) s) :
    call.DraftLengthOk s := by
  intro hrunning _ _ _
  have hinit : (call.initial self draftState prompt).self = self := by
    simp [initial, draftPrefill, hmode]
  have hlookup : ∀ s, Attached call s := fun s hmodel => by
    rw [hmode] at hmodel
    cases hmodel
  have hinv := hvisit.invariant
    (fun s => TargetInSync call s ∧
      0 ≤ s.self.currentDraftTokens ∧ s.self.currentDraftTokens ≤ 2 ^ 31 - 3)
    ⟨initial_targetInSync hne self draftState, by rw [hinit]; exact hcurrent⟩
    (fun before after hkept hstep => by
      obtain ⟨hsync, hbefore⟩ := hkept
      have hadapts := step_adapts (hlookup before) hsync
      rw [hstep] at hadapts
      refine ⟨step_inSync (hlookup before) hsync hstep, ?_⟩
      rcases hadapts.draftLength with hsame | ⟨self, accepted, drafted, hself, hafter⟩
      · rw [← hsame] at hbefore
        exact hbefore
      · rw [← hself] at hbefore
        have hadapted := adaptDraftLength_mem le_rfl hmin hmax hbefore accepted drafted
        rw [← hafter] at hadapted
        exact hadapted)
  -- The history is not empty, so there is room for fewer than `2 ^ 31` tokens.
  have hlong : 0 < s.history.length := by
    rw [← (hinv.1.kv hrunning).1]
    simp
  have hroom := hrunning.2
  rw [nDraft, toInt32_of_mem (by omega) (by omega)]
  exact le_min hinv.2.1 (by omega)

omit [IsStrictOrderedRing K] in
/-- Draft lengths in range stay in range, whatever the run. -/
theorem draftLengthOk_of_inRange {self : DecoderState} {draftState : DraftState}
    {prompt : List TokenId} (hne : prompt ≠ []) (hrange : call.DraftLengthsInRange self)
    {s : LoopState K}
    (hvisit : Loop.Visits call.step (call.initial self draftState prompt) s) :
    call.DraftLengthOk s := by
  rcases hrange with hmodel | ⟨hmin, hmin', hmax, hmax', hcurrent, hcurrent', hctx⟩
  · intro _ hmode
    rw [hmode] at hmodel
    cases hmodel
  · intro hrunning hmode
    exact draftLengthOk_of_lengths hne hmode ⟨hmin, hmin'⟩ ⟨hmax, hmax'⟩ ⟨hcurrent, hcurrent'⟩
      hctx.le hvisit hrunning hmode

/-- With the temperature off, speculation changes neither what a call delivers nor how
it ends, exactly when no iteration truncates a structural proposal to a negative
length; draft lengths in range rule that out. -/
theorem speculation_invisible_iff {self : DecoderState} {draftState : DraftState}
    {prompt : List TokenId} (htemp : call.gen.temperature ≤ 0)
    (hsources : SourcesInVocab call prompt) (hne : prompt ≠ [])
    (hfits : prompt.length ≤ call.nCtx) :
    (call.Agrees self draftState prompt ↔
      ∀ s, Loop.Visits call.step
        (call.initial { self with speculativeActive := true } draftState prompt) s →
          call.DraftLengthOk s) ∧
      (call.DraftLengthsInRange self → call.Agrees self draftState prompt) := by
  refine ⟨agrees_iff htemp hsources hne hfits, fun hrange => ?_⟩
  refine (agrees_iff htemp hsources hne hfits).mpr fun s hvisit => ?_
  exact draftLengthOk_of_inRange hne
    (show call.DraftLengthsInRange { self with speculativeActive := true } from hrange) hvisit

/-! ## Two lookup decoders -/

omit [IsStrictOrderedRing K] in
/-- Without an archive, and with a tokenizer that proposes no continuation, looked-up tokens
come from the history. -/
theorem lookupDraft_subset {history tokens : List TokenId} {n : ℤ}
    (harchive : call.decoder.config.corpus = none)
    (htokenize : ∀ text, call.decoder.target.tokenize text false = [])
    (hdraft : call.lookupDraft history n = .ok tokens) : tokens ⊆ history := by
  have hstructural : call.structuralDraft history = [] := by
    simp [structuralDraft, htokenize]
  unfold lookupDraft at hdraft
  split at hdraft
  · cases hdraft
    simp only [retrievedDraft, harchive]
    exact findDraft_subset _ _ _ _
  · simp only [hstructural, List.length_nil, List.take_nil] at hdraft
    split at hdraft
    · split at hdraft
      · cases hdraft
      · cases hdraft
        simp
    · cases hdraft
      simp

omit [IsStrictOrderedRing K] in
/-- In lookup mode a prompt inside the vocabulary is then all that is needed. -/
theorem sources_of_history {prompt : List TokenId} (hmode : call.modelMode = false)
    (harchive : call.decoder.config.corpus = none)
    (htokenize : ∀ text, call.decoder.target.tokenize text false = [])
    (hprompt : ∀ t ∈ prompt, call.decoder.target.InVocab t) : SourcesInVocab call prompt := by
  have hlookup : ¬ call.modelMode = true := by rw [hmode]; exact Bool.false_ne_true
  refine ⟨fun hmodel => absurd hmodel hlookup, fun hmodel => absurd hmodel hlookup,
    fun hmodel => absurd hmodel hlookup, fun _ generated hgenerated n tokens hdraft t ht => ?_⟩
  rcases List.mem_append.mp (lookupDraft_subset harchive htokenize hdraft ht) with hmem | hmem
  · exact hprompt t hmem
  · exact hgenerated t hmem

/-- A lookup decoder over a model of two tokens that always prefers the first, with
the given draft lengths, asked for one token. -/
def lookupCall (draftTokens minDraftTokens : ℤ) : Call ℚ where
  lib := .rational
  decoder :=
    { target :=
        { vocabSize := 2
          contextLength := 4
          eosToken := 1
          isEog := fun token => token == 1
          logits := fun _ => [1, 0]
          tokenize := fun _ _ => []
          detokenize := fun _ => []
          tokenPiece := fun _ => []
          vocabSize_pos := Nat.two_pos
          length_logits := fun _ => LlamaBackend.length_firstOfTwo }
      draft := none
      config :=
        { mode := .promptLookup
          draftTokens
          minDraftTokens
          maxDraftTokens := 32
          lookupMaxNgram := 3
          lookupMinNgram := 1
          corpus := none
          useSpeculative := true
          disableAfterDrafted := 96
          disableBelowAcceptance := 3 / 10 } }
  gen :=
    { maxTokens := 1
      temperature := 0
      topP := 1
      repeatPenalty := 1
      repeatLastN := 0
      seed := 42
      echoPrompt := false }
  callback := fun _ => .keepGoing

theorem lookupCall_sources (draftTokens minDraftTokens : ℤ) :
    SourcesInVocab (lookupCall draftTokens minDraftTokens) [0] := by
  refine sources_of_history rfl rfl (fun _ => rfl) fun t ht => ?_
  obtain rfl := List.mem_singleton.mp ht
  exact ⟨le_rfl, Int.ofNat_lt.mpr Nat.two_pos⟩

/-- Three tokens are asked of a model of three that says the second one after four tokens, and the
first one else. -/
def draftingCall : Call ℚ :=
  let call := lookupCall 16 2
  { call with
    decoder := { call.decoder with
      target :=
        { call.decoder.target with
          vocabSize := 3
          contextLength := 8
          eosToken := 2
          isEog := fun token => token == 2
          logits := fun history => if history.length = 4 then [0, 1, 0] else [1, 0, 0]
          vocabSize_pos := by decide
          length_logits := fun _ => by split <;> rfl } }
    gen := { call.gen with maxTokens := 3 } }

/-- The decoder built with its default draft lengths agrees with plain decoding: of five tokens that
it looks up in the prompt and behind it, one is accepted and four are rejected. -/
theorem draftingCall_agrees :
    draftingCall.decoder.construct = .ok ⟨16, true, {}⟩ ∧
      (draftingCall.generateStream 5 ⟨16, true, {}⟩ ⟨[], 0⟩ [0, 1, 1, 0]).map
        (fun result => (result.delivered, result.self.metrics)) = some ([1, 0, 0], ⟨5, 1, 4, 3⟩) ∧
      draftingCall.Agrees ⟨16, true, {}⟩ ⟨[], 0⟩ [0, 1, 1, 0] := by
  have hprompt : ∀ t ∈ ([0, 1, 1, 0] : List TokenId), draftingCall.decoder.target.InVocab t := by
    decide
  refine ⟨by decide, by decide +kernel, ?_⟩
  exact (speculation_invisible_iff le_rfl (sources_of_history rfl rfl (fun _ => rfl) hprompt)
    (by simp) (by decide)).2 (.inr (by decide))

/-- With draft lengths that may be negative it does not: the first iteration throws
`std::length_error` where plain decoding delivers a token. -/
theorem lookupCall_negative_disagrees :
    (lookupCall (-1) (-1)).decoder.construct = .ok ⟨-1, true, {}⟩ ∧
      SourcesInVocab (lookupCall (-1) (-1)) [0] ∧
      (lookupCall (-1) (-1)).generateStream 2 ⟨-1, true, {}⟩ ⟨[], 0⟩ [0] =
        some ⟨[], .threw .lengthError, ⟨-1, true, {}⟩, ⟨[], 0⟩, none⟩ ∧
      ((lookupCall (-1) (-1)).generateStream 2 ⟨-1, false, {}⟩ ⟨[], 0⟩ [0]).map
        (fun result => (result.delivered, result.exit)) = some ([0], .returned) ∧
      ¬ (lookupCall (-1) (-1)).Agrees ⟨-1, true, {}⟩ ⟨[], 0⟩ [0] := by
  refine ⟨by decide, lookupCall_sources _ _, by decide +kernel, by decide +kernel, fun hagrees => ?_⟩
  have hlength := (agrees_iff le_rfl (lookupCall_sources (-1) (-1))
    (by simp) (by decide)).mp hagrees _ .start
  exact absurd (hlength (by decide) (by decide) (by decide) (by decide)) (by decide)

end Call

end Reame.Speculative
