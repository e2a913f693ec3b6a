import Reame.Cache.PrefixCache
import Reame.Core.Sampler

/-!
# The classic generation path

`ReameEngine::generate_stream_impl` without a decoder and without a scheduler: check the
prompt, echo it if asked to, prefill it, with the disk cache or without, and sample until
the model ends, the caller stops, the context is full or the budget is spent.

The generation loop only sees the KV cache through the logits, so a reply depends on the
tokens the cache holds and on nothing else (`classicLoop_agrees`).  At its end the cache holds
the tokens of the conversation, or, when the budget or the context has ended it, all of them but
the last (`classicLoop_kv`).
-/

namespace Reame.Engine

open Reame.Core Reame.Cache

/-- `std::function<bool(const std::string&)>`, with the state a closure may keep: the
answer depends on all pieces delivered so far, the newest last. -/
abbrev TextCallback := List Bytes → CallbackResult

/-- What a caller of `generate_stream` sees: what was thrown, and the pieces its callback
has received. -/
structure Reply where
  error : Option Fault
  pieces : List Bytes
deriving DecidableEq, Repr

variable {K : Type*}

/-! ## The prompt -/

/-- The checks on a tokenized prompt. -/
def checkPrompt (nCtx : ℕ) (tokens : List TokenId) : Option Fault :=
  if tokens = [] then some (.engineError "prompt tokenized to zero tokens")
  else if nCtx < tokens.length then
    some (.engineError ("prompt of " ++ toString tokens.length ++
      " tokens exceeds context length " ++ toString nCtx))
  else none

theorem of_checkPrompt {nCtx : ℕ} {tokens : List TokenId} (hcheck : checkPrompt nCtx tokens = none) :
    tokens ≠ [] ∧ tokens.length ≤ nCtx := by
  unfold checkPrompt at hcheck
  split at hcheck
  · cases hcheck
  · rename_i hne
    split at hcheck
    · cases hcheck
    · rename_i hfits
      exact ⟨hne, not_lt.mp hfits⟩

/-- The part of `generate_stream_impl` before the modes divide: it ends in a reply, or
goes on with the tokens of the prompt and what has been echoed. -/
def openRequest (backend : LlamaBackend K) (prompt : Bytes) (gen : GenerationConfig K)
    (callback : TextCallback) : Reply ⊕ (List TokenId × List Bytes) :=
  let tokens := backend.tokenize prompt true
  match checkPrompt backend.contextLength tokens with
  | some fault => .inl ⟨some fault, []⟩
  | none =>
      if gen.echoPrompt then
        match callback [prompt] with
        | .throws => .inl ⟨some .callback, [prompt]⟩
        | .stop => .inl ⟨none, [prompt]⟩
        | .keepGoing => .inr (tokens, [prompt])
      else .inr (tokens, [])

theorem openRequest_inr {backend : LlamaBackend K} {prompt : Bytes} {gen : GenerationConfig K}
    {callback : TextCallback} {tokens : List TokenId} {echoed : List Bytes}
    (hopen : openRequest backend prompt gen callback = .inr (tokens, echoed)) :
    tokens = backend.tokenize prompt true ∧ tokens ≠ [] ∧
      tokens.length ≤ backend.contextLength := by
  unfold openRequest at hopen
  dsimp only at hopen
  split at hopen
  · cases hopen
  · rename_i hcheck
    have htokens : tokens = backend.tokenize prompt true := by
      split at hopen
      · split at hopen <;> cases hopen
        rfl
      · cases hopen
        rfl
    rw [← htokens] at hcheck
    exact ⟨htokens, of_checkPrompt hcheck⟩

/-! ## Generation -/

/-- The local variables of the generation loop, and what has been delivered. -/
structure ClassicState (K : Type*) where
  tokens : List TokenId
  logits : List K
  kv : KvState
  sampler : Sampler K
  pieces : List Bytes

variable [Field K] [LinearOrder K]

section Loop

variable (lib : StdLib K) (backend : StatefulBackend K) (callback : TextCallback)

/-- The generation loop; the argument is the number of iterations left in the budget. -/
def classicLoop : ℕ → ClassicState K → Reply × ClassicState K
  | 0, s => (⟨none, s.pieces⟩, s)
  | left + 1, s =>
      match s.sampler.sample lib s.logits s.tokens with
      | (.error fault, sampler) => (⟨some fault, s.pieces⟩, { s with sampler })
      | (.ok next, sampler) =>
          let s := { s with sampler }
          if backend.isEog next then (⟨none, s.pieces⟩, s)
          else
            let s := { s with pieces := s.pieces ++ [backend.tokenPiece next] }
            match callback s.pieces with
            | .throws => (⟨some .callback, s.pieces⟩, s)
            | .stop => (⟨none, s.pieces⟩, s)
            | .keepGoing =>
                let s := { s with tokens := s.tokens ++ [next] }
                if backend.contextLength ≤ s.tokens.length then (⟨none, s.pieces⟩, s)
                else if left = 0 then (⟨none, s.pieces⟩, s)
                else
                  match backend.decodeAppend s.kv [next] with
                  | (.error fault, kv) => (⟨some fault, s.pieces⟩, { s with kv })
                  | (.ok logits, kv) => classicLoop left { s with logits, kv }

end Loop

/-- A prefix cache with its manager and what its process was built with. -/
structure OpenCache where
  cache : PrefixCache
  platform : Platform
  manager : CacheManager

/-- What a classic engine keeps between requests. -/
structure ClassicMemory where
  kv : KvState
  cache : Option OpenCache
  contextTokens : List TokenId

/-- The prefill: with a cache all but the last token come from it, and the last one is
always decoded. -/
def prefillPrompt (backend : StatefulBackend K) (memory : ClassicMemory)
    (tokens : List TokenId) : Except Fault (List K) × ClassicMemory :=
  match memory.cache with
  | some c =>
      match c.cache.prefill c.platform backend tokens.dropLast c.manager memory.kv with
      | (.error fault, manager, kv) =>
          (.error fault, { memory with kv, cache := some { c with manager } })
      | (.ok _, manager, kv) =>
          let (logits, kv) := backend.decodeAppend kv [tokens.getLastD 0]
          (logits, { memory with kv, cache := some { c with manager } })
  | none =>
      let (logits, kv) := backend.decode memory.kv tokens
      (logits, { memory with kv })

/-- The classic path, from the prefill on.  `context_tokens` is only assigned when the
function gets to its end. -/
def classicGenerate (lib : StdLib K) (backend : StatefulBackend K) (memory : ClassicMemory)
    (tokens : List TokenId) (echoed : List Bytes) (gen : GenerationConfig K)
    (callback : TextCallback) : Reply × ClassicMemory :=
  match prefillPrompt backend memory tokens with
  | (.error fault, memory) => (⟨some fault, echoed⟩, memory)
  | (.ok logits, memory) =>
      let (reply, s) := classicLoop lib backend callback gen.maxTokens.toNat
        ⟨tokens, logits, memory.kv, Sampler.new lib gen, echoed⟩
      (reply, { memory with
        kv := s.kv
        contextTokens := if reply.error = none then s.tokens else memory.contextTokens })

/-- `generate_stream_impl` on the classic path. -/
def classicStream (lib : StdLib K) (backend : StatefulBackend K) (memory : ClassicMemory)
    (prompt : Bytes) (gen : GenerationConfig K) (callback : TextCallback) :
    Reply × ClassicMemory :=
  match openRequest backend.toLlamaBackend prompt gen callback with
  | .inl reply => (reply, memory)
  | .inr (tokens, echoed) => classicGenerate lib backend memory tokens echoed gen callback

/-! ## What a reply depends on -/

omit [Field K] [LinearOrder K] in
/-- Without a cache the prompt is decoded afresh. -/
theorem prefillPrompt_plain (backend : StatefulBackend K) {memory : ClassicMemory}
    (hplain : memory.cache = none) {tokens : List TokenId} (hne : tokens ≠ [])
    (hlength : tokens.length ≤ 2 ^ 31) :
    prefillPrompt backend memory tokens = (.ok (backend.logits tokens),
        { memory with kv := (backend.decode memory.kv tokens).2 }) ∧
      (backend.decode memory.kv tokens).2.Holds tokens := by
  obtain ⟨hlogits, hholds⟩ := backend.decode_holds memory.kv hne (by omega)
  refine ⟨?_, hholds⟩
  rw [prefillPrompt, hplain]
  dsimp only
  rw [hlogits]

section Reply

variable (lib : StdLib K) (backend : StatefulBackend K) (callback : TextCallback)

/-- Two loops over KV caches that hold the same tokens give the same reply, and go through the
same conversation. -/
theorem classicLoop_agrees :
    ∀ (left : ℕ) (s : ClassicState K) (kv : KvState), s.tokens.length ≤ 2 ^ 31 →
      s.kv.Holds s.tokens → kv.Holds s.tokens →
      (classicLoop lib backend callback left s).1 =
          (classicLoop lib backend callback left { s with kv }).1 ∧
        (classicLoop lib backend callback left s).2.tokens =
          (classicLoop lib backend callback left { s with kv }).2.tokens := by
  intro left
  induction left with
  | zero => intro s kv _ _ _; exact ⟨rfl, rfl⟩
  | succ left ih =>
      intro s kv hlength hkv hkv'
      rw [classicLoop, classicLoop]
      dsimp only
      split
      · exact ⟨rfl, rfl⟩
      · rename_i next sampler hsample
        split
        · exact ⟨rfl, rfl⟩
        · split
          · exact ⟨rfl, rfl⟩
          · exact ⟨rfl, rfl⟩
          · split
            · exact ⟨rfl, rfl⟩
            · rename_i hroom
              split
              · exact ⟨rfl, rfl⟩
              · have hroom' : s.tokens.length + 1 < 2 ^ 31 := by
                  have := backend.contextLength_le
                  simp only [List.length_append, List.length_singleton] at hroom
                  omega
                obtain ⟨after, hdecode, hholds⟩ := backend.decodeAppend_next hkv next
                  (by omega)
                obtain ⟨after', hdecode', hholds'⟩ := backend.decodeAppend_next hkv' next
                  (by omega)
                rw [hdecode, hdecode']
                exact ih _ after' (by simpa using hroom'.le) hholds hholds'

/-- What the KV cache holds after the loop. -/
theorem classicLoop_kv :
    ∀ (left : ℕ) (s : ClassicState K), s.tokens.length ≤ backend.contextLength →
      s.kv.Holds s.tokens →
      let after := (classicLoop lib backend callback left s).2
      after.tokens.length ≤ backend.contextLength + 1 ∧
        (after.kv.Holds after.tokens ∨ ∃ held last, after.tokens = held ++ [last] ∧
          after.kv.Holds held ∧ (backend.contextLength ≤ after.tokens.length ∨
            after.tokens.length = s.tokens.length + left)) := by
  intro left
  induction left with
  | zero => exact fun s hfits hkv => ⟨by simp only [classicLoop]; omega, .inl hkv⟩
  | succ left ih =>
      intro s hfits hkv
      dsimp only
      rw [classicLoop]
      split
      · exact ⟨by dsimp only; omega, .inl hkv⟩
      · rename_i next sampler hsample
        dsimp only
        split
        · exact ⟨by dsimp only; omega, .inl hkv⟩
        · split
          · exact ⟨by dsimp only; omega, .inl hkv⟩
          · exact ⟨by dsimp only; omega, .inl hkv⟩
          · -- The token is pushed, and only decoded if the loop goes on.
            have hpushed : (s.tokens ++ [next]).length ≤ backend.contextLength + 1 := by
              rw [List.length_append, List.length_singleton]
              omega
            split
            · rename_i hfull
              exact ⟨hpushed, .inr ⟨s.tokens, next, rfl, hkv, .inl hfull⟩⟩
            · rename_i hroom
              split
              · rename_i hlast
                refine ⟨hpushed, .inr ⟨s.tokens, next, rfl, hkv, .inr ?_⟩⟩
                rw [hlast, List.length_append, List.length_singleton]
              · have hcontext := backend.contextLength_le
                rw [not_le, List.length_append, List.length_singleton] at hroom
                obtain ⟨kv, hdecode, hholds⟩ := backend.decodeAppend_next hkv next
                  (by omega)
                rw [hdecode]
                obtain ⟨hlength, hafter⟩ := ih
                  { s with
                    sampler
                    tokens := s.tokens ++ [next]
                    pieces := s.pieces ++ [backend.tokenPiece next]
                    logits := backend.logits (s.tokens ++ [next])
                    kv }
                  (by rw [List.length_append, List.length_singleton]; omega) hholds
                refine ⟨hlength, hafter.imp_right ?_⟩
                rintro ⟨held, last, htokens, hheld, hended⟩
                refine ⟨held, last, htokens, hheld, hended.imp_right fun hspent => ?_⟩
                dsimp only at hspent ⊢
                rw [hspent, List.length_append, List.length_singleton]
                omega

end Reply

end Reame.Engine
