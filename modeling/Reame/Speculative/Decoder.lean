import Reame.Foundation.Loop
import Reame.Speculative.BatchVerifier

/-!
# The speculative decoder

`SpeculativeDecoder::generate_stream`: draft, verify in one batch, roll the
sequences back to the accepted prefix, emit, adapt the draft length; with the
plain sequential step as fallback.  The loop is a `step` in the sense of
`Reame.Foundation.Loop`, over a state that holds every local variable of the C++
function, the two KV sequences, the two generators and the mutable members of the
decoder; `delivered` records what the callback has received.

Wall-clock metrics are left out: no decision depends on them.
-/

namespace Reame.Speculative

open Reame.Core

/-- `SpeculativeDecoder::Config::Mode`. -/
inductive Mode
  | modelDraft
  | promptLookup
deriving DecidableEq, Repr

/-- The archive of past generations, as the decoder sees it: `CorpusIndex::draft`
proposes at most as many tokens as it is asked for. -/
structure Archive where
  draft : List TokenId → ℤ → List TokenId
  length_draft : ∀ tail k, (draft tail k).length ≤ k.toNat

/-- `SpeculativeDecoder::Config`. -/
structure DecoderConfig (K : Type*) where
  mode : Mode
  draftTokens : ℤ
  minDraftTokens : ℤ
  maxDraftTokens : ℤ
  lookupMaxNgram : ℤ
  lookupMinNgram : ℤ
  corpus : Option Archive
  useSpeculative : Bool
  disableAfterDrafted : ℕ
  disableBelowAcceptance : K

/-- `SpeculativeMetrics`, without the times. -/
structure Metrics where
  totalDraftTokens : ℕ := 0
  totalAcceptedTokens : ℕ := 0
  totalRejectedTokens : ℕ := 0
  generatedTokens : ℕ := 0
deriving DecidableEq, Repr

/-- The members of a decoder that a generation changes. -/
structure DecoderState where
  currentDraftTokens : ℤ
  speculativeActive : Bool
  metrics : Metrics := {}
deriving DecidableEq, Repr

/-- The members of a decoder that stay: the backends and the configuration. -/
structure Decoder (K : Type*) where
  target : LlamaBackend K
  draft : Option (FaultyBackend K)
  config : DecoderConfig K

/-- How a generation ends. -/
inductive Exit
  | returned
  | threw (fault : Fault)
deriving DecidableEq, Repr

/-- One call of `generate_stream`, apart from the prompt. -/
structure Call (K : Type*) [Field K] [LinearOrder K] where
  lib : StdLib K
  decoder : Decoder K
  gen : GenerationConfig K
  callback : TokenCallback

/-- The state at the head of the generation loop. -/
structure LoopState (K : Type*) where
  history : List TokenId
  cur : TokenId
  base : ℕ
  emitted : ℕ
  lookupSkip : Bool
  targetKv : List TokenId
  draftState : DraftState
  sampler : Sampler K
  acceptRng : Rng K
  self : DecoderState
  delivered : List TokenId

/-- What a call of `generate_stream` leaves behind: the tokens handed to the callback,
how it ended, the decoder and the draft sequence, and what the archive was given. -/
structure StreamResult where
  delivered : List TokenId
  exit : Exit
  self : DecoderState
  draftState : DraftState
  observed : Option (List TokenId)
deriving DecidableEq

variable {K : Type*} [Field K] [LinearOrder K]

/-- `std::clamp`, with the order of comparisons of the library. -/
def clamp (value low high : ℤ) : ℤ := min (max value low) high

/-- The constructor of `SpeculativeDecoder`: the two vocabularies may differ by at
most 128 entries of padding. -/
def Decoder.construct (decoder : Decoder K) : Except Fault DecoderState :=
  let config := decoder.config
  let state : DecoderState :=
    { currentDraftTokens := clamp config.draftTokens config.minDraftTokens config.maxDraftTokens
      speculativeActive := config.useSpeculative &&
        (config.mode == .promptLookup || decoder.draft.isSome) }
  match decoder.draft with
  | none => .ok state
  | some draft =>
      let diff := ((draft.vocabSize : ℤ) - decoder.target.vocabSize).natAbs
      if 128 < diff then
        .error (.engineError ("draft and target vocabularies differ (" ++
          toString draft.vocabSize ++ " vs " ++ toString decoder.target.vocabSize ++
          "): speculative decoding requires a shared tokenizer"))
      else .ok state

namespace Call

variable (call : Call K)

/-- `n_ctx`. -/
def nCtx : ℕ := call.decoder.target.contextLength

/-- `max_tokens`, with negative budgets read as zero. -/
def maxTokens : ℕ := call.gen.maxTokens.toNat

/-- `model_mode`. -/
def modelMode : Bool := call.decoder.config.mode == .modelDraft

/-- `draft_vocab`. -/
def draftVocab : ℕ :=
  match call.modelMode, call.decoder.draft with
  | true, some draft => draft.vocabSize
  | _, _ => call.decoder.target.vocabSize

/-- The condition of the generation loop. -/
def Running (s : LoopState K) : Prop := s.emitted < call.maxTokens ∧ s.history.length < call.nCtx

instance (s : LoopState K) : Decidable (call.Running s) := inferInstanceAs (Decidable (_ ∧ _))

/-- A token outside the draft model's vocabulary cannot be fed to it: the rest of
the generation is plain. -/
def vocabGuard (s : LoopState K) : LoopState K :=
  if s.self.speculativeActive ∧ call.modelMode ∧ (call.draftVocab : ℤ) ≤ s.cur then
    { s with self := { s.self with speculativeActive := false } }
  else s

/-- `n_draft`: the adaptive length, cut to the room left in the context. -/
def nDraft (s : LoopState K) : ℤ :=
  min s.self.currentDraftTokens (toInt32 (call.nCtx - s.history.length))

/-! ## Drafting -/

/-- The first two lookup sources: n-gram matches in the history, then the archive. -/
def retrievedDraft (history : List TokenId) (n : ℤ) : List TokenId :=
  let config := call.decoder.config
  let found := findDraft config.lookupMaxNgram config.lookupMinNgram history n
  match config.corpus with
  | some archive => if found = [] then archive.draft history n else found
  | none => found

/-- The third lookup source: the structural continuation of the last 48 tokens. -/
def structuralDraft (history : List TokenId) : List TokenId :=
  let tailTokens := min history.length 48
  let tailText := call.decoder.target.detokenize (history.drop (history.length - tailTokens))
  let proposal := propose tailText
  if proposal = [] then [] else call.decoder.target.tokenize proposal false

/-- The lookup sources in turn.  A structural proposal longer than `n_draft` is cut by
`resize`, which converts `n_draft` to `std::size_t`. -/
def lookupDraft (history : List TokenId) (n : ℤ) : Except Fault (List TokenId) :=
  if call.retrievedDraft history n ≠ [] then .ok (call.retrievedDraft history n)
  else
    let tokens := call.structuralDraft history
    if n < tokens.length then
      if n < 0 then .error .lengthError else .ok (tokens.take n.toNat)
    else .ok tokens

/-- The one-hot distributions of a looked-up draft. -/
def oneHotProbs (nVocab : ℕ) (tokens : List TokenId) : Except Fault (List (List K)) :=
  tokens.mapM fun token =>
    if 0 ≤ token ∧ token < (nVocab : ℤ) then .ok (oneHot nVocab token.toNat)
    else .error .outOfBounds

/-- What the drafting part of an iteration leads to: a proposal, `continue`, or an
exception that leaves `generate_stream`. -/
inductive Drafted (K : Type*)
  | proposed (draft : DraftResult K) (s : LoopState K)
  | retry (s : LoopState K)
  | threw (fault : Fault) (s : LoopState K)

/-- `speculative_active_ = false`. -/
def deactivate (s : LoopState K) : LoopState K :=
  { s with self := { s.self with speculativeActive := false } }

/-- Drafting with the draft model; any failure falls back to plain decoding. -/
def modelDraftPhase (s : LoopState K) : Drafted K :=
  match call.decoder.draft with
  | none => .threw .outOfBounds s
  | some backend =>
      let rollout := generateDraft call.lib backend call.decoder.config.draftTokens s.cur
        s.history s.sampler s.draftState (call.nDraft s)
      let s := { s with sampler := rollout.sampler, draftState := rollout.draft }
      match rollout.result with
      | .error _ => .retry (deactivate s)
      | .ok draft => if draft.tokens = [] then .retry (deactivate s) else .proposed draft s

/-- Drafting by lookup; a miss makes the next iteration a plain one. -/
def lookupDraftPhase (s : LoopState K) : Drafted K :=
  match call.lookupDraft s.history (call.nDraft s) with
  | .error fault => .threw fault s
  | .ok tokens =>
      match oneHotProbs call.decoder.target.vocabSize tokens with
      | .error fault => .threw fault s
      | .ok probs =>
          if tokens = [] then .retry { s with lookupSkip := true }
          else .proposed ⟨tokens, probs⟩ s

/-- The drafting part of an iteration. -/
def draftPhase (s : LoopState K) : Drafted K :=
  if call.modelMode then call.modelDraftPhase s else call.lookupDraftPhase s

/-! ## Emission -/

/-- The bookkeeping for a token the caller has accepted. -/
def push (s : LoopState K) (t : TokenId) : LoopState K :=
  { s with
    history := s.history ++ [t]
    cur := t
    emitted := s.emitted + 1
    delivered := s.delivered ++ [t]
    self := { s.self with metrics := { s.self.metrics with
      generatedTokens := s.self.metrics.generatedTokens + 1 } } }

/-- The loop that hands new tokens to the caller. -/
def emit : List TokenId → LoopState K → LoopState K ⊕ (Exit × LoopState K)
  | [], s => .inl s
  | t :: rest, s =>
      if call.decoder.target.isEog t then .inr (.returned, s)
      else
        match call.callback (s.delivered ++ [t]) with
        | .throws => .inr (.threw .callback, { s with delivered := s.delivered ++ [t] })
        | .stop => .inr (.returned, { s with delivered := s.delivered ++ [t] })
        | .keepGoing =>
            if call.maxTokens ≤ (push s t).emitted ∨ call.nCtx ≤ (push s t).history.length then
              .inl (push s t)
            else emit rest (push s t)

/-! ## Adaptation -/

/-- `adapt_draft_length`. -/
def adaptDraftLength (config : DecoderConfig K) (self : DecoderState) (accepted drafted : ℕ) :
    DecoderState :=
  if drafted = 0 then self
  else
    let rate : K := (accepted : K) / drafted
    let longer := min (toInt32 (self.currentDraftTokens + 2)) config.maxDraftTokens
    let shorter := max (toInt32 (self.currentDraftTokens - 2)) config.minDraftTokens
    if 9 / 10 ≤ rate then { self with currentDraftTokens := longer }
    else if rate ≤ 4 / 10 then { self with currentDraftTokens := shorter }
    else self

/-- `SpeculativeMetrics::acceptance_rate`. -/
def acceptanceRate (metrics : Metrics) : K :=
  if metrics.totalDraftTokens = 0 then 0
  else (metrics.totalAcceptedTokens : K) / metrics.totalDraftTokens

/-- `maybe_auto_disable`. -/
def maybeAutoDisable (config : DecoderConfig K) (self : DecoderState) : DecoderState :=
  if self.speculativeActive ∧ config.disableAfterDrafted ≤ self.metrics.totalDraftTokens ∧
      acceptanceRate self.metrics < config.disableBelowAcceptance then
    { self with speculativeActive := false }
  else self

/-! ## The loop -/

/-- The KV synchronisation after a verification: on a rejection both sequences go
back to the accepted prefix.  The draft's `truncate_to` is not guarded. -/
def syncKv (drafted : ℕ) (result : VerificationResult) (s : LoopState K) :
    Except Fault Unit × LoopState K :=
  match result.correctedToken with
  | none => (.ok (), { s with base := s.base + drafted })
  | some _ =>
      let keep := s.base + 1 + result.acceptedTokens.length
      let s := { s with targetKv := LlamaBackend.truncateTo s.targetKv keep }
      match call.modelMode, call.decoder.draft with
      | true, some draft =>
          match draft.truncateTo s.draftState keep with
          | (.error fault, draftState) => (.error fault, { s with draftState })
          | (.ok _, draftState) => (.ok (), { s with draftState, base := keep })
      | _, _ => (.ok (), { s with base := keep })

/-- The counters after a verification. -/
def countVerified (s : LoopState K) (drafted : ℕ) (result : VerificationResult) : LoopState K :=
  { s with self := { s.self with metrics := { s.self.metrics with
    totalDraftTokens := s.self.metrics.totalDraftTokens + drafted
    totalAcceptedTokens := s.self.metrics.totalAcceptedTokens + result.acceptedTokens.length
    totalRejectedTokens := s.self.metrics.totalRejectedTokens + result.rejectedCount } } }

/-- Batched verification of a draft, synchronisation, emission and adaptation. -/
def verifyPhase (draft : DraftResult K) (s : LoopState K) : LoopState K ⊕ (Exit × LoopState K) :=
  match verifyBatch call.lib call.decoder.target s.targetKv s.cur draft s.sampler s.acceptRng
      s.history with
  | (.error fault, targetKv, acceptRng) => .inr (.threw fault, { s with targetKv, acceptRng })
  | (.ok result, targetKv, acceptRng) =>
      let s := countVerified { s with targetKv, acceptRng } draft.tokens.length result
      match call.syncKv draft.tokens.length result s with
      | (.error fault, s) => .inr (.threw fault, s)
      | (.ok _, s) =>
          match call.emit result.newTokens s with
          | .inr out => .inr out
          | .inl s =>
              let adapted := adaptDraftLength call.decoder.config s.self
                result.acceptedTokens.length draft.tokens.length
              .inl { s with self := maybeAutoDisable call.decoder.config adapted }

/-- Plain sequential decoding of one token. -/
def plainStep (s : LoopState K) : LoopState K ⊕ (Exit × LoopState K) :=
  let (targetKv, logits) := call.decoder.target.decodeAppend s.targetKv [s.cur]
  let s := { s with lookupSkip := false, targetKv, base := s.base + 1 }
  match s.sampler.sample call.lib logits s.history with
  | (.error fault, sampler) => .inr (.threw fault, { s with sampler })
  | (.ok next, sampler) => call.emit [next] { s with sampler }

/-- One iteration of the generation loop. -/
def step (s : LoopState K) : LoopState K ⊕ (Exit × LoopState K) :=
  if call.Running s then
    let s := call.vocabGuard s
    if s.self.speculativeActive ∧ ¬ s.lookupSkip then
      match call.draftPhase s with
      | .retry s => .inl s
      | .threw fault s => .inr (.threw fault, s)
      | .proposed draft s => call.verifyPhase draft s
    else call.plainStep s
  else .inr (.returned, s)

/-! ## The whole call -/

/-- The draft model's prefill, inside its own `try`. -/
def draftPrefill (history : List TokenId) (base : ℕ) (self : DecoderState)
    (draftState : DraftState) : DecoderState × DraftState :=
  match call.modelMode, call.decoder.draft with
  | true, some draft =>
      if self.speculativeActive then
        match draft.reset draftState with
        | (.error _, draftState) => ({ self with speculativeActive := false }, draftState)
        | (.ok _, draftState) =>
            if 0 < base then
              match draft.decodeAppend draftState (history.take base) with
              | (.error _, draftState) => ({ self with speculativeActive := false }, draftState)
              | (.ok _, draftState) => (self, draftState)
            else (self, draftState)
      else (self, draftState)
  | _, _ => (self, draftState)

/-- The state in which the generation loop is entered.  `target_.reset()` and the
prefill leave the target sequence with the prompt minus its last token. -/
def initial (self : DecoderState) (draftState : DraftState) (prompt : List TokenId) :
    LoopState K :=
  let base := prompt.length - 1
  let targetKv := if 0 < base then
      (call.decoder.target.decodeAppend [] (prompt.take base)).1
    else []
  let (self, draftState) := call.draftPrefill prompt base self draftState
  { history := prompt
    cur := prompt.getLastD 0
    base
    emitted := 0
    lookupSkip := false
    targetKv
    draftState
    sampler := Sampler.new call.lib call.gen
    acceptRng := ⟨call.lib.mt19937 (seedWord call.gen.seed ^^^ 0x9E3779B9), 0⟩
    self
    delivered := [] }

/-- The checks `generate_stream` makes on its prompt. -/
def checkPrompt (prompt : List TokenId) : Except Fault Unit :=
  if prompt = [] then .error (.engineError "prompt is empty")
  else if call.nCtx < prompt.length then
    .error (.engineError ("prompt of " ++ toString prompt.length ++
      " tokens exceeds context length " ++ toString call.nCtx))
  else .ok ()

/-- The tokens the observe guard hands to the archive when the call ends. -/
def observed (history : List TokenId) : Option (List TokenId) :=
  if call.decoder.config.mode = .promptLookup ∧ call.decoder.config.corpus.isSome then some history
  else none

/-- What is visible of the state in which the loop was left. -/
def resultOf (out : Exit × LoopState K) : StreamResult :=
  { delivered := out.2.delivered
    exit := out.1
    self := out.2.self
    draftState := out.2.draftState
    observed := call.observed out.2.history }

/-- `SpeculativeDecoder::generate_stream`; `none` when the fuel runs out. -/
def generateStream (fuel : ℕ) (self : DecoderState) (draftState : DraftState)
    (prompt : List TokenId) : Option StreamResult :=
  match call.checkPrompt prompt with
  | .error fault =>
      some { delivered := [], exit := .threw fault, self, draftState, observed := none }
  | .ok _ =>
      (Loop.run call.step fuel (call.initial self draftState prompt)).map call.resultOf

end Call

end Reame.Speculative
