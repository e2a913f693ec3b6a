import Reame.Engine.GreedyStream
import Reame.Speculative.KvSync
import Reame.Speculative.LookupVocab

/-!
# The paths compared

The three generation loops were written one by one, and each tests the budget and the context at
its own place.  This file compares what they deliver, for one model and one request.

* The speculative loop tests both limits before a token is sampled, the classic one tests the
  context after a token.  So a prompt that fills the context gets one token from the classic loop
  and none from the speculative one, and that is all (`speculation_agrees_iff`).
* The scheduler tests the budget after a token, the classic loop before the first.  So a request
  without a budget gets one token from the scheduler and none from the classic loop, and that is
  all (`parallel_agrees_iff`), at every temperature.

For the scheduler the comparison is with a dialogue: the classic loop takes the same turns
(`classicLoop_advance`).
-/

namespace Reame.Engine

open Reame.Core Reame.Cache Reame.Speculative

variable {K : Type*} [Field K] [LinearOrder K]

/-! ## Building an engine -/

/-- What an engine is built from: one model, as a backend with one sequence and as one with
several, and a draft model if there is one. -/
structure Backends (K : Type*) where
  target : StatefulBackend K
  sequences : SeqBackend K
  draft : Option (FaultyBackend K)
  supportsRollback : Bool
  same : sequences.toLlamaBackend = target.toLlamaBackend

/-- `ReameEngine::Config`, as far as it decides on the path of an engine without a cache
directory. -/
structure EngineConfig where
  nParallel : ℤ
  useSpeculative : Bool
  usePromptLookup : Bool
  draftModelPath : Bytes
  draftTokens : ℤ

/-- The decoder that the constructor builds; what it does not set are the member initialisers of
`SpeculativeDecoder::Config`. -/
def EngineConfig.decoder (config : EngineConfig) (backends : Backends K) : Decoder K where
  target := backends.target.toLlamaBackend
  draft := backends.draft
  config :=
    { mode := if config.usePromptLookup then .promptLookup else .modelDraft
      draftTokens := config.draftTokens
      minDraftTokens := 2
      maxDraftTokens := 32
      lookupMaxNgram := 3
      lookupMinNgram := 1
      corpus := none
      useSpeculative := true
      disableAfterDrafted := 64
      disableBelowAcceptance := 15 / 100 }

/-- The constructor of `ReameEngine`, without a cache directory. -/
def ReameEngine.build (lib : StdLib K) (modelTag : Bytes) (config : EngineConfig)
    (backends : Backends K) : Except Fault (ReameEngine K) :=
  if config.nParallel < 1 then
    .error (.engineError ("n_parallel must be >= 1, got " ++ toString config.nParallel))
  else if 1 < config.nParallel ∧ (config.usePromptLookup ∨ config.draftModelPath ≠ []) then
    .error (.engineError ("n_parallel > 1 is not compatible with speculative decoding " ++
      "yet: disable [speculative] or set parallel = 1"))
  else if 1 < config.nParallel ∧ backends.draft.isSome then
    .error (.engineError "n_parallel > 1 is not compatible with a draft model yet")
  else if 1 < config.nParallel then
    .ok ⟨lib, modelTag, .parallel backends.sequences config.nParallel⟩
  else if config.useSpeculative ∧ backends.supportsRollback ∧
      (backends.draft.isSome ∨ config.usePromptLookup) then
    match (config.decoder backends).construct with
    | .error fault => .error fault
    | .ok _ => .ok ⟨lib, modelTag, .speculative (config.decoder backends)⟩
  else .ok ⟨lib, modelTag, .classic backends.target⟩

namespace ReameEngine

variable (engine : ReameEngine K)

/-- `generate_stream_impl` on the speculative path; `none` when the fuel runs out. -/
def speculativeStream (decoder : Decoder K) (fuel : ℕ) (self : DecoderState)
    (draftState : DraftState) (prompt : Bytes) (gen : GenerationConfig K)
    (callback : TextCallback) : Option Reply :=
  match openRequest engine.backend prompt gen callback with
  | .inl reply => some reply
  | .inr (tokens, echoed) =>
      ((engine.decoderCall decoder gen echoed callback).generateStream fuel self draftState
        tokens).map fun result => engine.replyOf echoed (faultOf result.exit) result.delivered

/-- `generate_stream_impl` on the parallel path: `earlier` is what the scheduler has been called
with before, `later` what it is called with while the request waits; `none` when it is not done
by then. -/
def parallelStream (backend : SeqBackend K) (nParallel : ℤ) (earlier later : List (Scheduler.Event K))
    (prompt : Bytes) (gen : GenerationConfig K) (callback : TextCallback) : Option Reply :=
  let scheduler := engine.scheduler backend nParallel
  match openRequest engine.backend prompt gen callback with
  | .inl reply => some reply
  | .inr (tokens, echoed) =>
      match scheduler.submit (scheduler.run scheduler.initial earlier) tokens gen
          (some (engine.onToken echoed callback)) with
      | .error fault => some ⟨some fault, echoed⟩
      | .ok (id, s) =>
          let s := scheduler.run s later
          if Scheduler.finished s id then
            some (engine.replyOf echoed (Scheduler.error s id) (Scheduler.received s id))
          else none

end ReameEngine

/-! ## The first token -/

/-- The token sampled after the prompt. -/
def firstToken (lib : StdLib K) (backend : LlamaBackend K) (gen : GenerationConfig K)
    (tokens : List TokenId) : TokenId :=
  match ((Sampler.new lib gen).sample lib (backend.logits tokens) tokens).1 with
  | .ok token => token
  | .error _ => 0

/-- The model ends the generation before it says anything. -/
def SilentAfter (lib : StdLib K) (backend : LlamaBackend K) (gen : GenerationConfig K)
    (prompt : Bytes) : Prop :=
  backend.isEog (firstToken lib backend gen (backend.tokenize prompt true)) = true

/-- The caller ends the generation when it is handed the prompt. -/
def EchoRefused (prompt : Bytes) (gen : GenerationConfig K) (callback : TextCallback) : Prop :=
  gen.echoPrompt = true ∧ callback [prompt] ≠ .keepGoing

instance (lib : StdLib K) (backend : LlamaBackend K) (gen : GenerationConfig K) (prompt : Bytes) :
    Decidable (SilentAfter lib backend gen prompt) :=
  inferInstanceAs (Decidable (_ = _))

instance (prompt : Bytes) (gen : GenerationConfig K) (callback : TextCallback) :
    Decidable (EchoRefused prompt gen callback) :=
  inferInstanceAs (Decidable (_ ∧ _))

omit [Field K] [LinearOrder K] in
/-- A prompt that passes the checks is generated from, unless the echo is refused. -/
theorem openRequest_cases {backend : LlamaBackend K} {prompt : Bytes} (gen : GenerationConfig K)
    (callback : TextCallback) (hne : backend.tokenize prompt true ≠ [])
    (hfits : (backend.tokenize prompt true).length ≤ backend.contextLength) :
    (EchoRefused prompt gen callback ∧ ∃ reply,
        openRequest backend prompt gen callback = .inl reply) ∨
      (¬ EchoRefused prompt gen callback ∧
        openRequest backend prompt gen callback =
          .inr (backend.tokenize prompt true, if gen.echoPrompt then [prompt] else [])) := by
  have hcheck : checkPrompt backend.contextLength (backend.tokenize prompt true) = none := by
    rw [checkPrompt, if_neg hne, if_neg (not_lt.mpr hfits)]
  unfold openRequest EchoRefused
  dsimp only
  rw [hcheck]
  dsimp only
  by_cases hecho : gen.echoPrompt = true
  · rw [if_pos hecho, if_pos hecho]
    cases callback [prompt] with
    | keepGoing => exact .inr ⟨by simp, rfl⟩
    | stop => exact .inl ⟨⟨hecho, by simp⟩, _, rfl⟩
    | throws => exact .inl ⟨⟨hecho, by simp⟩, _, rfl⟩
  · rw [if_neg hecho, if_neg hecho]
    exact .inr ⟨fun hrefused => hecho hrefused.1, rfl⟩

/-! ## Speculation -/

/-- The lengths the engine gives a lookup decoder stay in range. -/
theorem draftTokens_of_reaches {lib : StdLib K} {config : EngineConfig} {backends : Backends K}
    (hlookup : config.usePromptLookup = true) {self : DecoderState} {draftState : DraftState}
    (hreaches : Reaches lib (config.decoder backends) self draftState) :
    0 ≤ self.currentDraftTokens ∧ self.currentDraftTokens ≤ 2 ^ 31 - 3 := by
  have hmode : ∀ gen callback, Call.modelMode ⟨lib, config.decoder backends, gen, callback⟩ =
      false := by simp [Call.modelMode, EngineConfig.decoder, hlookup]
  refine hreaches.invariant
    (fun self => 0 ≤ self.currentDraftTokens ∧ self.currentDraftTokens ≤ 2 ^ 31 - 3)
    (fun self hself => ?_) (fun gen callback s _ => Call.attached_of_lookup (hmode gen callback) s)
    fun gen callback before after hbefore hadapts => ?_
  · rw [(Call.members_of_construct hself).1]
    simp only [clamp, EngineConfig.decoder]
    omega
  · rcases hadapts.draftLength with hsame | ⟨self, accepted, drafted, hself, hafter⟩
    · rw [hsame]
      exact hbefore
    · rw [← hself] at hbefore
      rw [hafter]
      exact Call.adaptDraftLength_mem le_rfl (by simp [EngineConfig.decoder])
        (by simp [EngineConfig.decoder]) hbefore accepted drafted

/-- The lookup sources of an engine without a cache directory: the history and the tokenizer. -/
theorem sourcesInVocab_of_lookup (lib : StdLib K) {config : EngineConfig} {backends : Backends K}
    (hlookup : config.usePromptLookup = true)
    (htokenizes : TokenizesInVocab backends.target.toLlamaBackend) (gen : GenerationConfig K)
    (callback : TokenCallback) (prompt : Bytes) :
    Call.SourcesInVocab ⟨lib, config.decoder backends, gen, callback⟩
      (backends.target.tokenize prompt true) := by
  have hmode : Call.modelMode ⟨lib, config.decoder backends, gen, callback⟩ = false := by
    simp [Call.modelMode, EngineConfig.decoder, hlookup]
  refine ⟨by simp [hmode], by simp [hmode], by simp [hmode], ?_⟩
  intro _ generated hgenerated n tokens hdraft
  refine Call.lookupDraft_inVocab_of_quiet rfl htokenizes (fun t ht => ?_) hdraft
  rcases List.mem_append.mp ht with ht | ht
  · exact htokenizes prompt true t ht
  · exact hgenerated t ht

/-- Building an engine that speculates. -/
theorem build_speculative {lib : StdLib K} {modelTag : Bytes} {config : EngineConfig}
    {backends : Backends K} {engine : ReameEngine K} (hparallel : config.nParallel ≤ 1)
    (hlookup : config.usePromptLookup = true) (hrollback : backends.supportsRollback = true)
    (hbuild : ReameEngine.build lib modelTag { config with useSpeculative := true } backends =
      .ok engine) : engine = ⟨lib, modelTag, .speculative (config.decoder backends)⟩ := by
  have hserial : ¬ 1 < config.nParallel := not_lt.mpr hparallel
  unfold ReameEngine.build at hbuild
  simp only [hserial, hlookup, hrollback, false_and, if_false, or_true, and_self, if_true] at hbuild
  split at hbuild
  · cases hbuild
  · split at hbuild
    · cases hbuild
    · cases hbuild
      simp only [EngineConfig.decoder, hlookup]

/-- Building an engine that does not. -/
theorem build_classic {lib : StdLib K} {modelTag : Bytes} {config : EngineConfig}
    {backends : Backends K} {engine : ReameEngine K} (hparallel : config.nParallel ≤ 1)
    (hbuild : ReameEngine.build lib modelTag { config with useSpeculative := false } backends =
      .ok engine) : engine = ⟨lib, modelTag, .classic backends.target⟩ := by
  have hserial : ¬ 1 < config.nParallel := not_lt.mpr hparallel
  unfold ReameEngine.build at hbuild
  simp only [hserial, Bool.false_eq_true, false_and, if_false] at hbuild
  split at hbuild
  · cases hbuild
  · cases hbuild
    rfl

/-- A model with the given context that says one word over and over, and takes every prompt for
that word. -/
def oneWordBackend (nCtx : ℕ) (hctx : nCtx ≤ 2 ^ 31) : StatefulBackend ℚ :=
  { blobBackend with
    contextLength := nCtx
    tokenize := fun _ _ => [0]
    tokenPiece := fun _ => ascii "a"
    vocabSize_pos := blobBackend_vocabSize_pos
    length_logits := blobBackend_length_logits
    contextLength_le := hctx }

/-- The same model with one sequence and with several. -/
def oneWordBackends (nCtx : ℕ) (hctx : nCtx ≤ 2 ^ 31) : Backends ℚ where
  target := oneWordBackend nCtx hctx
  sequences :=
    { (oneWordBackend nCtx hctx).toLlamaBackend with
      refuses := fun _ _ => none
      contextLength_lt := show nCtx < 2 ^ 32 by omega }
  draft := none
  supportsRollback := true
  same := rfl

section Greedy

variable [IsStrictOrderedRing K] {lib : StdLib K} {modelTag : Bytes} {gen : GenerationConfig K}
  {prompt : Bytes} {tokens : List TokenId} {echoed : List Bytes} {callback : TextCallback}

/-- With the temperature off the first token is the greedy one. -/
theorem firstToken_greedy (htemp : gen.temperature ≤ 0) (backend : LlamaBackend K)
    (tokens : List TokenId) :
    firstToken lib backend gen tokens = greedyToken gen (backend.logits tokens) tokens := by
  have hconfig : (Sampler.new lib gen).config.temperature ≤ 0 := htemp
  rw [firstToken, sample_greedy lib hconfig (backend.logits_ne_nil tokens)]
  rfl

/-- The streams of the speculative and of the classic path, for a prompt that leaves room in the
context, are the same; for one that does not, the speculative stream is empty. -/
theorem streams_agree_iff {backends : Backends K} {config : EngineConfig} {reply reply' : Reply}
    (htemp : gen.temperature ≤ 0) (hfits : tokens.length ≤ backends.target.contextLength)
    (hspeculative : ReameEngine.Streams ⟨lib, modelTag, .speculative (config.decoder backends)⟩
      tokens echoed gen callback [] reply)
    (hclassic : ReameEngine.Streams ⟨lib, modelTag, .classic backends.target⟩ tokens echoed gen
      callback [] reply') :
    reply.pieces = reply'.pieces ↔
      tokens.length < backends.target.contextLength ∨ gen.maxTokens ≤ 0 ∨
        backends.target.isEog (firstToken lib backends.target.toLlamaBackend gen tokens) = true := by
  let speculative : ReameEngine K := ⟨lib, modelTag, .speculative (config.decoder backends)⟩
  let classic : ReameEngine K := ⟨lib, modelTag, .classic backends.target⟩
  obtain ⟨out, hexits, hreply, -⟩ := hspeculative
  obtain ⟨out', hexits', hreply', -⟩ := hclassic
  have hpieces : reply.pieces = echoed ++ out.map backends.target.tokenPiece :=
    congrArg Reply.pieces hreply
  have hpieces' : reply'.pieces = echoed ++ out'.map backends.target.tokenPiece :=
    congrArg Reply.pieces hreply'
  by_cases hroom : tokens.length < backends.target.contextLength
  · -- With room the two paths end at the same places.
    refine iff_of_true ?_ (.inl hroom)
    have hended : ∀ delivered, speculative.Ended gen tokens delivered ↔
        classic.Ended gen tokens delivered := by
      intro delivered
      show _ ∨ _ ↔ _ ∨ _
      show gen.maxTokens ≤ delivered.length ∨
          backends.target.contextLength ≤ tokens.length + delivered.length ↔
        gen.maxTokens ≤ delivered.length ∨ (delivered ≠ [] ∧
          backends.target.contextLength ≤ tokens.length + delivered.length)
      rcases delivered with _ | ⟨t, rest⟩
      · simp only [List.length_nil]
        omega
      · simp
    have hnext : speculative.nextToken gen tokens = classic.nextToken gen tokens := by
      funext delivered
      unfold ReameEngine.nextToken
      simp only [hended]
      rfl
    have hsame : out = out' := by
      unfold ReameEngine.streamStep at hexits hexits'
      rw [show ReameEngine.nextToken ⟨lib, modelTag, .speculative (config.decoder backends)⟩ gen
        tokens = _ from hnext] at hexits
      exact hexits.unique hexits'
    rw [hpieces, hpieces', hsame]
  · -- A full context: the speculative path is at its end.
    have hempty : out = [] := by
      refine (Streaming.eq_nil_iff hexits).mpr (ReameEngine.nextToken_ended (.inr ?_))
      show backends.target.contextLength ≤ tokens.length + 0
      omega
    have hsilent : out' = [] ↔ gen.maxTokens ≤ 0 ∨
        backends.target.isEog (firstToken lib backends.target.toLlamaBackend gen tokens) = true := by
      have hended : classic.Ended gen tokens [] ↔ gen.maxTokens ≤ 0 := by
        show gen.maxTokens ≤ ((0 : ℕ) : ℤ) ∨ (([] : List TokenId) ≠ [] ∧ _) ↔ _
        simp
      have hpick : classic.pick gen (tokens ++ []) =
          firstToken lib backends.target.toLlamaBackend gen tokens := by
        rw [firstToken_greedy htemp, List.append_nil]
        rfl
      rw [Streaming.eq_nil_iff hexits']
      show classic.nextToken gen tokens [] = none ↔ _
      rw [ReameEngine.nextToken_eq_none_iff, hended, hpick]
      rfl
    rw [hpieces, hpieces', hempty, or_iff_right hroom, ← hsilent]
    simp

/-- A greedy request to an engine that speculates and to one that does not, both built from one
model without a cache directory: the pieces are the same if the prompt leaves room in the
context, and otherwise only if the classic engine delivers no token either. -/
theorem speculation_agrees_iff {config : EngineConfig} {backends : Backends K}
    {speculative classic : ReameEngine K} (hparallel : config.nParallel ≤ 1)
    (hlookup : config.usePromptLookup = true) (hrollback : backends.supportsRollback = true)
    (htokenizes : TokenizesInVocab backends.target.toLlamaBackend)
    (hspeculative : ReameEngine.build lib modelTag { config with useSpeculative := true } backends =
      .ok speculative)
    (hclassic : ReameEngine.build lib modelTag { config with useSpeculative := false } backends =
      .ok classic)
    (htemp : gen.temperature ≤ 0) (hne : backends.target.tokenize prompt true ≠ [])
    (hfits : (backends.target.tokenize prompt true).length ≤ backends.target.contextLength) :
    ∃ decoder, speculative.path = .speculative decoder ∧ classic.path = .classic backends.target ∧
      ∀ self draftState memory, Reaches lib decoder self draftState → memory.cache = none →
        ∃ reply enough,
          (∀ fuel ≥ enough, speculative.speculativeStream decoder fuel self draftState prompt gen
            callback = some reply) ∧
          (reply.pieces =
              (classicStream lib backends.target memory prompt gen callback).1.pieces ↔
            (backends.target.tokenize prompt true).length < backends.target.contextLength ∨
              gen.maxTokens ≤ 0 ∨ SilentAfter lib backends.target.toLlamaBackend gen prompt ∨
              EchoRefused prompt gen callback) := by
  obtain rfl := build_speculative hparallel hlookup hrollback hspeculative
  obtain rfl := build_classic hparallel hclassic
  refine ⟨_, rfl, rfl, fun self draftState memory hreaches hplain => ?_⟩
  let decoder := config.decoder backends
  let engine : ReameEngine K := ⟨lib, modelTag, .speculative decoder⟩
  rcases openRequest_cases gen callback hne hfits with ⟨hrefused, reply, hopen⟩ | ⟨hgranted, hopen⟩
  · -- The echo is refused, by both.
    refine ⟨reply, 0, fun fuel _ => ?_, iff_of_true ?_ (.inr (.inr (.inr hrefused)))⟩
    · show ReameEngine.speculativeStream _ _ _ _ _ _ _ _ = _
      unfold ReameEngine.speculativeStream
      rw [show openRequest (ReameEngine.backend engine) prompt gen callback = _ from hopen]
    · unfold classicStream
      rw [hopen]
  · set tokens := backends.target.tokenize prompt true with htokens
    set echoed := if gen.echoPrompt then [prompt] else []
    let call := engine.decoderCall decoder gen echoed callback
    have hmode : call.modelMode = false := by
      simp [call, ReameEngine.decoderCall, decoder, Call.modelMode, EngineConfig.decoder, hlookup]
    have hroom : tokens.length ≤ call.nCtx := hfits
    have hmin : (0 : ℤ) ≤ 2 ∧ (2 : ℤ) ≤ 2 ^ 31 - 3 := by decide
    have hmax : (0 : ℤ) ≤ 32 ∧ (32 : ℤ) ≤ 2 ^ 31 - 3 := by decide
    have hlengths := fun visited (hvisit : Loop.Visits call.step
        (call.initial self draftState tokens) visited) =>
      Call.draftLengthOk_of_lengths hne hmode hmin hmax
        (draftTokens_of_reaches hlookup hreaches) backends.target.contextLength_le hvisit
    have hsources := sourcesInVocab_of_lookup lib hlookup htokenizes gen
      call.callback prompt
    -- The speculative path returns, whatever the fuel once there is enough of it.
    obtain ⟨e, s, hexits, -⟩ := Call.exists_exits htemp hsources
      (Call.initial_inSync hne self draftState) hlengths
    obtain ⟨enough, hrun⟩ := Call.generateStream_of_exits hne hroom hexits
    let result := call.resultOf (e, s)
    let reply := engine.replyOf echoed (ReameEngine.faultOf result.exit) result.delivered
    have hstream : engine.Streams tokens echoed gen callback [] reply :=
      ReameEngine.generates_streams htemp (sourcesInVocab_of_lookup _ hlookup htokenizes gen _ prompt)
        hne hfits ⟨self, draftState, hlengths, result, enough, hrun, rfl⟩
    have hstream' : ReameEngine.Streams ⟨lib, modelTag, .classic backends.target⟩ tokens echoed gen
        callback [] (classicGenerate lib backends.target memory tokens echoed gen callback).1 :=
      ReameEngine.classicGenerate_streams htemp hne (hfits.trans backends.target.contextLength_le)
        (by simp [TrustedCache, hplain])
    refine ⟨reply, enough, fun fuel hfuel => ?_, ?_⟩
    · show ReameEngine.speculativeStream _ _ _ _ _ _ _ _ = _
      unfold ReameEngine.speculativeStream
      rw [show openRequest (ReameEngine.backend engine) prompt gen callback = _ from hopen]
      dsimp only
      rw [hrun fuel hfuel]
      rfl
    · unfold classicStream
      rw [hopen]
      dsimp only
      rw [streams_agree_iff htemp hfits hstream hstream', or_iff_left hgranted]
      rfl

end Greedy

/-- A model of three words and a prompt of four: after four tokens it says the second word, else
the first one. -/
def abbaBackend : StatefulBackend ℚ :=
  { blobBackend with
    toLlamaBackend :=
      { Speculative.Call.draftingCall.decoder.target with
        tokenize := fun _ _ => [0, 1, 1, 0]
        tokenPiece := fun token => if token = 0 then ascii "a" else ascii "b" }
    attend := fun cells => if cells.length = 4 then [0, 1, 0] else [1, 0, 0]
    attend_zipIdx := fun tokens => by rw [List.length_zipIdx]; rfl
    length_attend := fun _ => by split <;> rfl }

theorem abbaBackend_contextLength_lt : abbaBackend.contextLength < 2 ^ 32 := by decide

/-- The same model with one sequence and with several. -/
def abbaBackends : Backends ℚ where
  target := abbaBackend
  sequences :=
    { abbaBackend.toLlamaBackend with
      refuses := fun _ _ => none
      contextLength_lt := abbaBackend_contextLength_lt }
  draft := none
  supportsRollback := true
  same := rfl

/-- A context of eight tokens leaves room for a prompt of four. Of five tokens that are looked up,
one is accepted and four are rejected. -/
theorem speculation_agrees_short :
    let decoder := EngineConfig.decoder ⟨1, true, true, [], 16⟩ abbaBackends
    let engine : ReameEngine ℚ := ⟨.rational, [], .speculative decoder⟩
    ((engine.decoderCall decoder (Scheduler.greedyConfig 3) [] (fun _ => .keepGoing)).generateStream
        5 ⟨16, true, {}⟩ ⟨[], 0⟩ [0, 1, 1, 0]).map (fun result => result.self.metrics) =
      some ⟨5, 1, 4, 3⟩ ∧
    ∃ reply enough,
      (∀ fuel ≥ enough, engine.speculativeStream decoder fuel ⟨16, true, {}⟩ ⟨[], 0⟩ []
        (Scheduler.greedyConfig 3) (fun _ => .keepGoing) = some reply) ∧
      reply.pieces = (classicStream .rational abbaBackend ⟨⟨[], 0, 0⟩, none, []⟩
        [] (Scheduler.greedyConfig 3) (fun _ => .keepGoing)).1.pieces := by
  have htokenizes : TokenizesInVocab abbaBackends.target.toLlamaBackend := by
    intro text addSpecial t ht
    have hsmall : ∀ t ∈ ([0, 1, 1, 0] : List TokenId), abbaBackend.InVocab t := by decide
    exact hsmall t ht
  obtain ⟨decoder, hdecoder, -, hagrees⟩ := @speculation_agrees_iff ℚ _ _ _ .rational []
    (Scheduler.greedyConfig 3) [] (fun _ => .keepGoing) ⟨1, true, true, [], 16⟩
    abbaBackends _ _ le_rfl rfl rfl htokenizes rfl rfl le_rfl (by decide) (by decide)
  cases hdecoder
  obtain ⟨reply, enough, hrun, hpieces⟩ := hagrees ⟨16, true, {}⟩ ⟨[], 0⟩ ⟨⟨[], 0, 0⟩, none, []⟩
    (.constructed ⟨[], 0⟩ (by decide)) rfl
  exact ⟨by decide +kernel, reply, enough, hrun, hpieces.mpr (.inl (by decide))⟩

/-- A prompt of one token fills a context of one: without speculation the word is said once, with
it never. -/
theorem full_context_differs :
    let config : EngineConfig := ⟨1, true, true, [], 16⟩
    let backends := oneWordBackends 1 (by decide)
    let decoder := config.decoder backends
    ReameEngine.build .rational [] config backends = .ok ⟨.rational, [], .speculative decoder⟩ ∧
      ReameEngine.build .rational [] { config with useSpeculative := false } backends =
        .ok ⟨.rational, [], .classic backends.target⟩ ∧
      decoder.construct = .ok ⟨16, true, {}⟩ ∧
      ReameEngine.speculativeStream ⟨.rational, [], .speculative decoder⟩ decoder 1 ⟨16, true, {}⟩
        ⟨[], 0⟩ [] (Scheduler.greedyConfig 1) (fun _ => .keepGoing) = some ⟨none, []⟩ ∧
      (classicStream .rational backends.target ⟨⟨[], 0, 0⟩, none, []⟩ []
        (Scheduler.greedyConfig 1) (fun _ => .keepGoing)).1 = ⟨none, [ascii "a"]⟩ :=
  ⟨rfl, rfl, by decide, by decide +kernel, by decide +kernel⟩

/-! ## Parallel serving -/

/-- Building an engine that serves several requests, and one for a single request. -/
theorem build_parallel {lib : StdLib K} {modelTag : Bytes} {config : EngineConfig}
    {backends : Backends K} {parallel classic : ReameEngine K} (hparallel : 1 < config.nParallel)
    (hbuild : ReameEngine.build lib modelTag config backends = .ok parallel)
    (hbuild' : ReameEngine.build lib modelTag { config with nParallel := 1 } backends =
      .ok classic) :
    parallel = ⟨lib, modelTag, .parallel backends.sequences config.nParallel⟩ ∧
      classic = ⟨lib, modelTag, .classic backends.target⟩ := by
  unfold ReameEngine.build at hbuild hbuild'
  rw [if_neg (by omega)] at hbuild
  split at hbuild
  · cases hbuild
  · rename_i hserial
    split at hbuild
    · cases hbuild
    · rename_i hdraft
      cases hbuild
      refine ⟨rfl, ?_⟩
      -- There is nothing to draft from, so the other engine does not speculate.
      have hlookup : config.usePromptLookup ≠ true := fun hlookup =>
        hserial ⟨hparallel, .inl hlookup⟩
      have hdraft' : backends.draft.isSome ≠ true := fun hsome => hdraft ⟨hparallel, hsome⟩
      simpa [hlookup, hdraft'] using hbuild'.symm

section Parallel

variable {lib : StdLib K} {modelTag : Bytes} {backend : StatefulBackend K}
  {sequences : SeqBackend K} {nParallel : ℤ} {gen : GenerationConfig K} {prompt : Bytes}
  {tokens : List TokenId} {echoed : List Bytes} {callback : TextCallback}

/-- The classic loop is where a dialogue is: it has the same tokens to go on from, a KV cache that
holds them, and the budget that is left. -/
structure InDialogue (backend : StatefulBackend K) (callback : TextCallback) (echoed : List Bytes)
    (left : ℕ) (s : ClassicState K) (d : Dialogue K) : Prop where
  tokens : s.tokens = d.history
  sampler : s.sampler = d.sampler
  pieces : s.pieces = echoed ++ d.delivered.map backend.tokenPiece
  onToken : ∀ delivered, d.onToken delivered =
    callback (echoed ++ delivered.map backend.tokenPiece)
  kv : s.kv.Holds d.history
  logits : s.logits = backend.logits d.history
  fits : d.history.length ≤ backend.contextLength
  budget : (left : ℤ) = d.gen.maxTokens - d.emitted

/-- One iteration of the classic loop is one turn of the dialogue. -/
theorem classicLoop_turn (hsame : sequences.toLlamaBackend = backend.toLlamaBackend) {left : ℕ}
    {s : ClassicState K} {d : Dialogue K}
    (hin : InDialogue backend callback echoed (left + 1) s d) :
    (∃ outcome, Scheduler.advance ⟨lib, sequences, nParallel⟩ d = .inr outcome ∧
      (classicLoop lib backend callback (left + 1) s).1 =
        ⟨outcome.error, echoed ++ outcome.delivered.map backend.tokenPiece⟩) ∨
    (∃ d' rest s', Scheduler.advance ⟨lib, sequences, nParallel⟩ d = .inl d' ∧ left = rest + 1 ∧
      InDialogue backend callback echoed (rest + 1) s' d' ∧
      (classicLoop lib backend callback (left + 1) s).1 =
        (classicLoop lib backend callback (rest + 1) s').1) := by
  have hlogits : sequences.logits = backend.logits := by rw [hsame]
  have heog : sequences.isEog = backend.isEog := by rw [hsame]
  have hctx : Scheduler.nCtx ⟨lib, sequences, nParallel⟩ = backend.contextLength := by
    show sequences.contextLength = backend.contextLength
    rw [hsame]
  have hbudget := hin.budget
  unfold Scheduler.advance classicLoop
  rw [hlogits, heog, hctx, hin.logits, hin.tokens, hin.sampler, hin.pieces]
  rcases d.sampler.sample lib (backend.logits d.history) d.history with ⟨fault | next, sampler⟩
  · exact .inl ⟨_, rfl, rfl⟩
  · dsimp only
    by_cases hend : backend.isEog next = true
    · rw [if_pos hend, if_pos hend]
      exact .inl ⟨_, rfl, rfl⟩
    · rw [if_neg hend, if_neg hend, hin.onToken, List.append_assoc]
      have hpieces : d.delivered.map backend.tokenPiece ++ [backend.tokenPiece next] =
          (d.delivered ++ [next]).map backend.tokenPiece := by simp
      rw [hpieces]
      cases callback (echoed ++ (d.delivered ++ [next]).map backend.tokenPiece) with
      | throws => exact .inl ⟨_, rfl, rfl⟩
      | stop => exact .inl ⟨_, rfl, rfl⟩
      | keepGoing =>
          dsimp only
          rw [List.length_append, List.length_singleton]
          -- The dialogue tests the budget and the context together, the loop one after the other.
          split
          · rename_i hover
            refine .inl ⟨_, rfl, ?_⟩
            by_cases hfull : backend.contextLength ≤ d.history.length + 1
            · rw [if_pos hfull]
            · rw [if_neg hfull, if_pos (by push_cast at hbudget hover; omega)]
          · rename_i hover
            have hroom : ¬ backend.contextLength ≤ d.history.length + 1 := fun h => hover (.inr h)
            obtain ⟨rest, rfl⟩ : ∃ rest, left = rest + 1 := by
              refine Nat.exists_eq_succ_of_ne_zero fun hzero => hover (.inl ?_)
              push_cast at hbudget ⊢
              omega
            have hcontext := backend.contextLength_le
            obtain ⟨kv, hdecode, hholds⟩ := backend.decodeAppend_next hin.kv next (by omega)
            rw [if_neg hroom, if_neg (Nat.succ_ne_zero rest), hdecode]
            refine .inr ⟨_, rest, _, rfl, rfl, ⟨rfl, rfl, rfl, hin.onToken, hholds, rfl, ?_, ?_⟩, rfl⟩
            · show (d.history ++ [next]).length ≤ backend.contextLength
              rw [List.length_append, List.length_singleton]
              omega
            · show ((rest + 1 : ℕ) : ℤ) = d.gen.maxTokens - ((d.emitted + 1 : ℕ) : ℤ)
              push_cast at hbudget ⊢
              omega

/-- The classic loop takes the turns of a dialogue, and ends after the same token. -/
theorem classicLoop_advance (hsame : sequences.toLlamaBackend = backend.toLlamaBackend)
    {d : Dialogue K} {outcome : Outcome}
    (hexits : Loop.Exits (Scheduler.advance ⟨lib, sequences, nParallel⟩) d outcome) :
    ∀ (left : ℕ) (s : ClassicState K), InDialogue backend callback echoed (left + 1) s d →
      (classicLoop lib backend callback (left + 1) s).1 =
        ⟨outcome.error, echoed ++ outcome.delivered.map backend.tokenPiece⟩ := by
  induction hexits with
  | leave hstep =>
      intro left s hin
      rcases classicLoop_turn hsame hin with ⟨outcome', hturn, hloop⟩ | ⟨d', rest, s', hturn, -⟩
      · obtain rfl := Sum.inr.inj (hstep.symm.trans hturn)
        exact hloop
      · cases hstep.symm.trans hturn
  | next hstep _ ih =>
      intro left s hin
      rcases classicLoop_turn hsame hin with ⟨outcome', hturn, -⟩ |
        ⟨d', rest, s', hturn, rfl, hin', hloop⟩
      · cases hstep.symm.trans hturn
      · obtain rfl := Sum.inl.inj (hstep.symm.trans hturn)
        rw [hloop]
        exact ih rest s' hin'

/-- A dialogue delivers nothing exactly if the model ends it before it says anything. -/
theorem outcome_eq_nil_iff (hsame : sequences.toLlamaBackend = backend.toLlamaBackend)
    {onToken : TokenCallback} {outcome : Outcome}
    (hexits : Loop.Exits (Scheduler.advance ⟨lib, sequences, nParallel⟩)
      (Scheduler.start ⟨lib, sequences, nParallel⟩ tokens gen onToken) outcome) :
    outcome.delivered = [] ↔
      backend.isEog (firstToken lib backend.toLlamaBackend gen tokens) = true := by
  obtain ⟨token, sampler, hsample⟩ := sample_ok lib (Sampler.new lib gen)
    (backend.logits_ne_nil tokens) tokens
  have hfirst : firstToken lib backend.toLlamaBackend gen tokens = token := by
    rw [firstToken, hsample]
  have hlogits : sequences.logits = backend.logits := by rw [hsame]
  have heog : sequences.isEog = backend.isEog := by rw [hsame]
  rw [hfirst]
  by_cases hend : backend.isEog token = true
  · refine iff_of_true ?_ hend
    have hstep : Scheduler.advance ⟨lib, sequences, nParallel⟩
        (Scheduler.start ⟨lib, sequences, nParallel⟩ tokens gen onToken) = .inr ⟨none, []⟩ := by
      unfold Scheduler.advance Scheduler.start
      rw [hlogits, heog, hsample]
      exact if_pos hend
    exact congrArg Outcome.delivered (hexits.unique (.leave hstep))
  · refine iff_of_false ?_ hend
    cases hexits with
    | leave hstep =>
        unfold Scheduler.advance Scheduler.start at hstep
        rw [hlogits, heog, hsample] at hstep
        dsimp only at hstep
        rw [if_neg hend] at hstep
        split at hstep
        · cases hstep
          simp
        · cases hstep
          simp
        · split at hstep
          · cases hstep
            simp
          · cases hstep
    | next hstep hrest =>
        -- What has been delivered stays delivered.
        obtain ⟨next, -, hdelivered, -⟩ := Scheduler.advance_inl hstep
        have hprefix := Scheduler.prefix_delivered hrest
        rw [hdelivered] at hprefix
        intro hnil
        rw [hnil] at hprefix
        simp at hprefix

/-- A request to an engine that serves several at once and to one that serves one, both built from
one model without a cache directory and without anything to draft from: the pieces are the same
if there is a budget, and otherwise only if the scheduler delivers no token either. -/
theorem parallel_agrees_iff {config : EngineConfig} {backends : Backends K}
    {parallel classic : ReameEngine K} (hparallel : 1 < config.nParallel)
    (hbuild : ReameEngine.build lib modelTag config backends = .ok parallel)
    (hbuild' : ReameEngine.build lib modelTag { config with nParallel := 1 } backends = .ok classic)
    (hok : ∀ kv slices, backends.sequences.refuses kv slices = none)
    (hne : backends.target.tokenize prompt true ≠ [])
    (hfits : (backends.target.tokenize prompt true).length ≤ backends.target.contextLength) :
    parallel.path = .parallel backends.sequences config.nParallel ∧
      classic.path = .classic backends.target ∧
      ∀ earlier memory, memory.cache = none → ∃ reply enough,
        (∀ later, enough ≤ Scheduler.stepCount later →
          parallel.parallelStream backends.sequences config.nParallel earlier later prompt gen
            callback = some reply) ∧
        (reply.pieces = (classicStream lib backends.target memory prompt gen callback).1.pieces ↔
          0 < gen.maxTokens ∨ SilentAfter lib backends.target.toLlamaBackend gen prompt ∨
            EchoRefused prompt gen callback) := by
  obtain ⟨rfl, rfl⟩ := build_parallel hparallel hbuild hbuild'
  refine ⟨rfl, rfl, fun earlier memory hplain => ?_⟩
  let engine : ReameEngine K := ⟨lib, modelTag, .parallel backends.sequences config.nParallel⟩
  let scheduler := engine.scheduler backends.sequences config.nParallel
  have hbackend : engine.backend = backends.target.toLlamaBackend := backends.same
  rcases openRequest_cases gen callback hne hfits with ⟨hrefused, reply, hopen⟩ | ⟨hgranted, hopen⟩
  · refine ⟨reply, 0, fun later _ => ?_, iff_of_true ?_ (.inr (.inr hrefused))⟩
    · show ReameEngine.parallelStream engine _ _ _ _ _ _ _ = _
      unfold ReameEngine.parallelStream
      rw [hbackend, hopen]
    · unfold classicStream
      rw [hopen]
  · set tokens := backends.target.tokenize prompt true with htokens
    set echoed := if gen.echoPrompt then [prompt] else []
    have hnCtx : scheduler.nCtx = backends.target.contextLength :=
      congrArg LlamaBackend.contextLength backends.same
    have hpiece : engine.backend.tokenPiece = backends.target.tokenPiece := by rw [hbackend]
    let s := scheduler.run scheduler.initial earlier
    obtain ⟨id, s', hsubmit⟩ : ∃ id s', scheduler.submit s tokens gen
        (some (engine.onToken echoed callback)) = .ok (id, s') := by
      unfold Scheduler.submit
      rw [if_neg hne, if_neg (by rw [hnCtx]; exact not_lt.mpr hfits)]
      exact ⟨_, _, rfl⟩
    obtain ⟨outcome, hexits⟩ := Scheduler.exists_outcome scheduler
      (scheduler.start tokens gen (engine.onToken echoed callback))
    obtain ⟨hfollows, enough, hends⟩ := Scheduler.submitted_follows_dialogue hok hparallel.le
      (Scheduler.coherent_run (Scheduler.coherent_initial scheduler) earlier) hsubmit hexits
    refine ⟨⟨outcome.error, echoed ++ outcome.delivered.map backends.target.tokenPiece⟩, enough,
      fun later hlater => ?_, ?_⟩
    · have hfinished := hends later hlater
      obtain ⟨hreceived, herror⟩ := (hfollows later).2 hfinished
      show ReameEngine.parallelStream engine _ _ _ _ _ _ _ = _
      unfold ReameEngine.parallelStream
      rw [hbackend, hopen]
      dsimp only
      rw [show Scheduler.submit (engine.scheduler backends.sequences config.nParallel) _ _ _ _ = _
        from hsubmit]
      dsimp only
      rw [if_pos hfinished, hreceived, herror, ReameEngine.replyOf, hpiece]
    · obtain ⟨hprefill, hholds⟩ := prefillPrompt_plain backends.target hplain hne
        (hfits.trans backends.target.contextLength_le)
      unfold classicStream classicGenerate
      rw [hopen]
      dsimp only
      rw [hprefill]
      dsimp only
      have hsilent := outcome_eq_nil_iff backends.same hexits
      by_cases hbudget : 0 < gen.maxTokens
      · -- With a budget the loop takes the turns of the dialogue.
        refine iff_of_true ?_ (.inl hbudget)
        obtain ⟨left, hleft⟩ : ∃ left, gen.maxTokens.toNat = left + 1 :=
          Nat.exists_eq_succ_of_ne_zero (by omega)
        rw [hleft, classicLoop_advance backends.same hexits left]
        refine ⟨rfl, rfl, ?_, fun delivered => ?_, hholds, rfl, hfits, ?_⟩
        · simp [Scheduler.start]
        · show callback (echoed ++ delivered.map engine.backend.tokenPiece) = _
          rw [hpiece]
        · show ((left + 1 : ℕ) : ℤ) = gen.maxTokens - ((0 : ℕ) : ℤ)
          omega
      · -- Without one it does not take the first.
        have hzero : gen.maxTokens.toNat = 0 := by omega
        rw [hzero, classicLoop, or_iff_right hbudget, or_iff_left hgranted]
        show echoed ++ _ = echoed ↔ backends.target.isEog _ = true
        rw [← hsilent]
        simp

end Parallel

/-- A budget of four tokens, in a scheduler with two slots. -/
theorem parallel_agrees_budget :
    ∃ reply enough,
      (∀ later, enough ≤ Scheduler.stepCount later →
        ReameEngine.parallelStream
          ⟨.rational, [], .parallel (oneWordBackends 8 (by decide)).sequences 2⟩
          (oneWordBackends 8 (by decide)).sequences 2 [] later [] (Scheduler.greedyConfig 4)
          (fun _ => .keepGoing) = some reply) ∧
      reply.pieces = (classicStream .rational (oneWordBackend 8 (by decide)) ⟨⟨[], 0, 0⟩, none, []⟩
        [] (Scheduler.greedyConfig 4) (fun _ => .keepGoing)).1.pieces := by
  obtain ⟨-, -, hagrees⟩ := @parallel_agrees_iff ℚ _ _ .rational [] (Scheduler.greedyConfig 4) []
    (fun _ => .keepGoing) ⟨2, true, false, [], 16⟩ (oneWordBackends 8 (by decide)) _ _
    (by decide) rfl rfl (fun _ _ => rfl) (by decide) (by decide)
  obtain ⟨reply, enough, hrun, hpieces⟩ := hagrees [] ⟨⟨[], 0, 0⟩, none, []⟩ rfl
  exact ⟨reply, enough, hrun, hpieces.mpr (.inl (by decide))⟩

/-- Without a budget the scheduler still says the word once. -/
theorem no_budget_differs :
    let config : EngineConfig := ⟨2, true, false, [], 16⟩
    let backends := oneWordBackends 8 (by decide)
    ReameEngine.build .rational [] config backends =
        .ok ⟨.rational, [], .parallel backends.sequences 2⟩ ∧
      ReameEngine.build .rational [] { config with nParallel := 1 } backends =
        .ok ⟨.rational, [], .classic backends.target⟩ ∧
      ReameEngine.parallelStream ⟨.rational, [], .parallel backends.sequences 2⟩ backends.sequences 2
        [] [.step] [] (Scheduler.greedyConfig 0) (fun _ => .keepGoing) =
          some ⟨none, [ascii "a"]⟩ ∧
      (classicStream .rational backends.target ⟨⟨[], 0, 0⟩, none, []⟩ []
        (Scheduler.greedyConfig 0) (fun _ => .keepGoing)).1 = ⟨none, []⟩ :=
  ⟨rfl, rfl, by decide +kernel, by decide +kernel⟩

end Reame.Engine
