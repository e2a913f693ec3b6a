import Reame.Engine.ClassicCache
import Reame.Core.Serving
import Reame.Speculative.GreedyCalls

/-!
# The three ways to generate

A `ReameEngine` generates on one of three paths, fixed when it is built: interleaved with
other requests by the scheduler, speculatively, or classically, with or without the disk
cache.  The state the engine is in when a request arrives differs from path to path, and
on the parallel path other requests come and go while it is served.  `Produces` abstracts
from all of this: it relates a request to the replies it may get.

The state of an engine is one it gets into by serving requests: a disk cache whose
snapshots represent what their keys say, a decoder that does not run into a negative draft
length, a scheduler reached by submissions and steps.
-/

namespace Reame.Engine

open Reame.Core Reame.Cache Reame.Speculative

/-- The path an engine generates on. -/
inductive Path (K : Type*)
  | classic (backend : StatefulBackend K)
  | speculative (decoder : Decoder K)
  | parallel (backend : SeqBackend K) (nParallel : ℤ)

/-- The paths, without what they are made of. -/
inductive PathKind
  | classic
  | speculative
  | parallel
deriving DecidableEq, Repr

/-- Which path it is. -/
def Path.kind {K : Type*} : Path K → PathKind
  | .classic _ => .classic
  | .speculative _ => .speculative
  | .parallel _ _ => .parallel

/-- `ReameEngine`, as far as it stays the same. -/
structure ReameEngine (K : Type*) [Field K] [LinearOrder K] where
  lib : StdLib K
  modelTag : Bytes
  path : Path K

variable {K : Type*} [Field K] [LinearOrder K]

/-- A disk cache that can be relied on for these tokens, or none. -/
def TrustedCache (modelTag : Bytes) (backend : StatefulBackend K) (cache : Option OpenCache)
    (tokens : List TokenId) : Prop :=
  ∀ c ∈ cache, ∃ (zstd : Zstd) (models : Bytes → StatefulBackend K)
    (inPlay : Set (Bytes × List TokenId)),
    models modelTag = backend ∧ c.cache.modelTag = modelTag ∧
    Set.InjOn (fun pair : Bytes × List TokenId => keyOf pair.1 pair.2) inPlay ∧
    SoundCache zstd models inPlay c ∧
    PrefixesInPlay inPlay modelTag tokens.dropLast

namespace ReameEngine

variable (engine : ReameEngine K)

/-- The model. -/
def backend : LlamaBackend K :=
  match engine.path with
  | .classic backend => backend.toLlamaBackend
  | .speculative decoder => decoder.target
  | .parallel backend _ => backend.toLlamaBackend

/-- `n_ctx`. -/
def nCtx : ℕ := engine.backend.contextLength

/-- The scheduler's callback: the pieces follow what has been echoed. -/
def onToken (echoed : List Bytes) (callback : TextCallback) : TokenCallback :=
  fun delivered => callback (echoed ++ delivered.map engine.backend.tokenPiece)

/-- The reply after the given tokens. -/
def replyOf (echoed : List Bytes) (error : Option Fault) (delivered : List TokenId) : Reply :=
  ⟨error, echoed ++ delivered.map engine.backend.tokenPiece⟩

/-- What a call of the decoder threw. -/
def faultOf : Exit → Option Fault
  | .returned => none
  | .threw fault => some fault

/-- The call of the decoder for a request. -/
def decoderCall (decoder : Decoder K) (gen : GenerationConfig K) (echoed : List Bytes)
    (callback : TextCallback) : Call K :=
  ⟨engine.lib, decoder, gen, engine.onToken echoed callback⟩

/-- The scheduler of an engine in parallel mode. -/
def scheduler (backend : SeqBackend K) (nParallel : ℤ) : Scheduler K :=
  ⟨engine.lib, backend, nParallel⟩

/-- `generate_stream_impl` may give this reply, after the prompt has been checked and
echoed. -/
def Generates (tokens : List TokenId) (echoed : List Bytes) (gen : GenerationConfig K)
    (callback : TextCallback) (reply : Reply) : Prop :=
  match engine.path with
  | .classic backend =>
      ∃ memory : ClassicMemory, TrustedCache engine.modelTag backend memory.cache tokens ∧
        reply = (classicGenerate engine.lib backend memory tokens echoed gen callback).1
  | .speculative decoder =>
      let call := engine.decoderCall decoder gen echoed callback
      ∃ self draftState,
        (∀ visited, Loop.Visits call.step (call.initial self draftState tokens) visited →
          call.DraftLengthOk visited) ∧
        ∃ result enough, (∀ fuel ≥ enough,
            call.generateStream fuel self draftState tokens = some result) ∧
          reply = engine.replyOf echoed (faultOf result.exit) result.delivered
  | .parallel backend nParallel =>
      let scheduler := engine.scheduler backend nParallel
      ∃ events id s later,
        scheduler.submit (scheduler.run scheduler.initial events) tokens gen
          (some (engine.onToken echoed callback)) = .ok (id, s) ∧
        Scheduler.finished (scheduler.run s later) id = true ∧
        reply = engine.replyOf echoed (Scheduler.error (scheduler.run s later) id)
          (Scheduler.received (scheduler.run s later) id)

/-- `generate_stream_impl` may give this reply. -/
def Produces (prompt : Bytes) (gen : GenerationConfig K) (callback : TextCallback)
    (reply : Reply) : Prop :=
  match openRequest engine.backend prompt gen callback with
  | .inl early => reply = early
  | .inr (tokens, echoed) => engine.Generates tokens echoed gen callback reply

/-- What the paths take for granted of their backends: the draft sources propose tokens
of the vocabulary, and a batch does not fail. -/
def Ready (tokens : List TokenId) (gen : GenerationConfig K) : Prop :=
  match engine.path with
  | .classic _ => True
  | .speculative decoder =>
      Call.SourcesInVocab ⟨engine.lib, decoder, gen, fun _ => .keepGoing⟩ tokens
  | .parallel backend nParallel => 1 ≤ nParallel ∧ ∀ kv slices, backend.refuses kv slices = none

end ReameEngine

end Reame.Engine
