import Reame.Core.Conclave
import Reame.Engine.ResponseKey

/-!
# The response cache

`generate_stream` in front of `generate_stream_impl`: a deterministic request that does not
echo is looked up first, and what was delivered is stored when the generation returns.
`generate` and `generate_best` go through it; of the attempts of a conclave only the first
is deterministic.

What is stored is what the callback has received.  It is the whole completion if the
callback does not end the generation before its last piece (`cache_complete`), and a
truncated one otherwise (`truncated_completion_stored`): every later request for the prompt
is then answered with it.
-/

namespace Reame.Engine

open Reame.Core Reame.Core.Conclave Reame.Cache Reame.Speculative

variable {K : Type*} [Field K] [LinearOrder K]

/-- An `ArcaCache` that behaves as a map. -/
abbrev ArcaMap := Bytes → Option Bytes

/-- `cacheable`. -/
def cacheable (gen : GenerationConfig K) : Bool := gen.temperature ≤ 0

/-- `use_arca`, for an engine with an ARCA cache. -/
def useArca (gen : GenerationConfig K) : Bool := cacheable gen && !gen.echoPrompt

section Calls

variable (engine : ReameEngine K) (hash : Bytes → UInt64)

/-- `generate_stream` may give this reply and leave this cache. -/
def Serves (cache : ArcaMap) (prompt : Bytes) (gen : GenerationConfig K) (callback : TextCallback)
    (reply : Reply) (after : ArcaMap) : Prop :=
  if useArca gen then
    let key := cacheKey hash engine.modelTag prompt gen
    match cache key with
    | some hit =>
        reply = ⟨if callback [hit] = .throws then some .callback else none, [hit]⟩ ∧ after = cache
    | none =>
        engine.Produces prompt gen callback reply ∧
          after = if reply.error = none then Function.update cache key (some reply.text) else cache
  else engine.Produces prompt gen callback reply ∧ after = cache

/-- Several calls of `generate_stream` for one prompt, in the order in which they get to
the cache. -/
def ServesAll (prompt : Bytes) :
    ArcaMap → List (GenerationConfig K × TextCallback) → ArcaMap → Prop
  | cache, [], after => after = cache
  | cache, (gen, callback) :: rest, after =>
      ∃ reply between, Serves engine hash cache prompt gen callback reply between ∧
        ServesAll prompt between rest after

/-- The callback of an attempt of a conclave: it goes on until it sees the flag up. -/
def attemptCallback (flagUp : List Bytes → Bool) : TextCallback :=
  fun pieces => if flagUp pieces then .stop else .keepGoing

end Calls

/-- A call of the engine.  `flagUp i pieces` says whether attempt `i` of a conclave finds
the flag up after these pieces. -/
inductive EngineCall
  | generateStream (prompt : Bytes) (callback : TextCallback)
  | generate (prompt : Bytes)
  | generateBest (prompt : Bytes) (n : ℤ) (flagUp : ℕ → List Bytes → Bool)

section Runs

variable (engine : ReameEngine K) (hash : Bytes → UInt64) (gen : GenerationConfig K)

/-- A call may take the cache from one content to another.  The attempts of a conclave run
side by side in parallel mode, and the flag goes up whenever one of the others decides the
election; otherwise they run in turn, until the flag is up or one of them throws, and none
of them sees it up. -/
def Performs (cache : ArcaMap) : EngineCall → ArcaMap → Prop
  | .generateStream prompt callback, after =>
      ∃ reply, Serves engine hash cache prompt gen callback reply after
  | .generate prompt, after => ∃ reply, Serves engine hash cache prompt gen takeAll reply after
  | .generateBest prompt n flagUp, after =>
      if n ≤ 1 then ∃ reply, Serves engine hash cache prompt gen takeAll reply after
      else
        match engine.path.kind with
        | .parallel => ∃ order : List ℕ, order.Perm (List.range n.toNat) ∧
            ServesAll engine hash prompt cache
              (order.map fun i => (conclaveAttempt gen i, attemptCallback (flagUp i))) after
        | _ => ∃ attempts, 1 ≤ attempts ∧ attempts ≤ n.toNat ∧
            ServesAll engine hash prompt cache
              ((List.range attempts).map fun i => (conclaveAttempt gen i, takeAll)) after

/-- The callback goes on at every piece of the completion but the last. -/
def LetsFinish (prompt : Bytes) (callback : TextCallback) : Prop :=
  ∀ full, Streaming.Whole (engine.nextToken gen (engine.backend.tokenize prompt true)) full →
    ∀ part, part <+: full → part ≠ [] → part.length < full.length →
      engine.onToken [] callback part = .keepGoing

/-- The prompt is not in the cache. -/
def Misses (cache : ArcaMap) (prompt : Bytes) : Prop :=
  cache (cacheKey hash engine.modelTag prompt gen) = none

/-- The call lets a completion that it will store finish: its callback does, or in parallel
mode the flag of the conclave for the first attempt. -/
def StoresWhole (cache : ArcaMap) : EngineCall → Prop
  | .generateStream prompt callback =>
      Misses engine hash gen cache prompt → LetsFinish engine gen prompt callback
  | .generate _ => True
  | .generateBest prompt _ flagUp => engine.path.kind = .parallel →
      Misses engine hash gen cache prompt →
        LetsFinish engine gen prompt (attemptCallback (flagUp 0))

/-- The prompt of a call. -/
def EngineCall.prompt : EngineCall → Bytes
  | .generateStream prompt _ => prompt
  | .generate prompt => prompt
  | .generateBest prompt _ _ => prompt

/-- The contents the cache gets to, from an empty one, by calls with prompts in play that
meet a condition. -/
inductive Reached (inPlay : Set Bytes) (allowed : ArcaMap → EngineCall → Prop) : ArcaMap → Prop
  | empty : Reached inPlay allowed fun _ => none
  | call {cache after : ArcaMap} {call : EngineCall} (hreached : Reached inPlay allowed cache)
      (hplay : call.prompt ∈ inPlay) (hallowed : allowed cache call)
      (hperforms : Performs engine hash gen cache call after) : Reached inPlay allowed after

/-- What an uncached run with a callback that takes everything would produce. -/
def IsCompletion (prompt text : Bytes) : Prop :=
  (∃ reply, engine.Produces prompt gen takeAll reply) ∧
    ∀ reply, engine.Produces prompt gen takeAll reply → reply.error = none ∧ reply.text = text

/-- The cache holds complete completions only. -/
def HoldsCompletions (inPlay : Set Bytes) (cache : ArcaMap) : Prop :=
  ∀ prompt ∈ inPlay, ∀ text, cache (cacheKey hash engine.modelTag prompt gen) = some text →
    IsCompletion engine gen prompt text

end Runs

/-! ## Stores -/

section Complete

variable [IsStrictOrderedRing K] {engine : ReameEngine K} {hash : Bytes → UInt64}
  {gen : GenerationConfig K} {inPlay : Set Bytes}

omit [IsStrictOrderedRing K] in
theorem useArca_iff : useArca gen = true ↔ gen.temperature ≤ 0 ∧ gen.echoPrompt = false := by
  simp [useArca, cacheable]

/-- The explorers of a conclave are not cached. -/
theorem useArca_explorer {i : ℕ} (hi : i ≠ 0) : useArca (conclaveAttempt gen i) = false := by
  have hwarm : 0 < (conclaveAttempt gen i).temperature := by
    rw [conclaveAttempt, if_neg hi]
    dsimp only
    have hpos : (0 : K) < 7 / 10 := by norm_num
    split
    · exact hpos
    · rename_i hhot
      exact hpos.trans_le (not_lt.mp hhot)
  rw [Bool.eq_false_iff, ne_eq, useArca_iff]
  exact fun hcold => absurd hcold.1 (not_le.mpr hwarm)

/-- A generation that is let finish delivers the whole completion. -/
theorem isCompletion_of_produces (hcold : useArca gen = true) {prompt : Bytes}
    (hready : engine.Ready (engine.backend.tokenize prompt true) gen) {callback : TextCallback}
    (hfinish : LetsFinish engine gen prompt callback) {reply : Reply}
    (hproduces : engine.Produces prompt gen callback reply) (herror : reply.error = none) :
    IsCompletion engine gen prompt reply.text := by
  obtain ⟨htemp, hecho⟩ := useArca_iff.mp hcold
  refine ⟨exists_produces htemp hready takeAll, fun whole hwhole => ?_⟩
  have hopened : openRequest engine.backend prompt gen callback = _ :=
    openRequest_silent hecho callback
  unfold ReameEngine.Produces at hproduces
  rw [hopened] at hproduces
  rcases produces_takeAll htemp hecho hready hwhole with
    ⟨fault, hcheck, -⟩ | ⟨hcheck, full, hstream, rfl⟩
  · -- A prompt that fails the checks has no completion.
    rw [show checkPrompt engine.backend.contextLength _ = some fault from hcheck] at hproduces
    rw [show reply = _ from hproduces] at herror
    cases herror
  · rw [show checkPrompt engine.backend.contextLength _ = none from hcheck] at hproduces hopened
    obtain ⟨-, hne, hfits⟩ := openRequest_inr hopened
    obtain ⟨out, hout, hreply, -⟩ := ReameEngine.generates_streams htemp hready hne hfits hproduces
    have hfull := Streaming.exits_whole hstream fun part hpart hpos hshort =>
      decide_eq_true (hfinish full hstream part hpart (List.length_pos_iff.mp hpos) hshort)
    rw [hout.unique hfull, herror] at hreply
    rw [hreply]
    exact ⟨rfl, rfl⟩

variable (hinj : Set.InjOn (fun prompt => hash (responseMaterial engine.modelTag prompt gen)) inPlay)
  (hready : ∀ prompt ∈ inPlay, engine.Ready (engine.backend.tokenize prompt true) gen)
include hinj hready

/-- One call of `generate_stream`. -/
theorem serves_holdsCompletions {cache after : ArcaMap} {prompt : Bytes} (hprompt : prompt ∈ inPlay)
    {callback : TextCallback} {reply : Reply}
    (hserves : Serves engine hash cache prompt gen callback reply after)
    (hfinish : Misses engine hash gen cache prompt → LetsFinish engine gen prompt callback)
    (hholds : HoldsCompletions engine hash gen inPlay cache) :
    HoldsCompletions engine hash gen inPlay after := by
  unfold Serves at hserves
  split at hserves
  · rename_i hcold
    dsimp only at hserves
    split at hserves
    · rw [hserves.2]
      exact hholds
    · rename_i hmiss
      obtain ⟨hproduces, rfl⟩ := hserves
      split
      · rename_i herror
        intro prompt' hprompt' text htext
        by_cases hkey : cacheKey hash engine.modelTag prompt' gen =
            cacheKey hash engine.modelTag prompt gen
        · rw [hkey, Function.update_self, Option.some.injEq] at htext
          have hhash := hex64_inj (List.append_cancel_left hkey)
          rw [hinj hprompt' hprompt hhash, ← htext]
          exact isCompletion_of_produces hcold (hready prompt hprompt) (hfinish hmiss) hproduces
            herror
        · rw [Function.update_of_ne hkey] at htext
          exact hholds prompt' hprompt' text htext
      · exact hholds
  · rw [hserves.2]
    exact hholds

omit [IsStrictOrderedRing K] hinj hready in
/-- Calls that do not use the cache leave it alone. -/
theorem serves_uncached {cache after : ArcaMap} {prompt : Bytes} {gen : GenerationConfig K}
    (hwarm : useArca gen = false) {callback : TextCallback} {reply : Reply}
    (hserves : Serves engine hash cache prompt gen callback reply after) : after = cache := by
  rw [Serves, if_neg (by simp [hwarm])] at hserves
  exact hserves.2

/-- The attempts of a conclave, each attempt at most once: only the first gets to the
cache. -/
theorem servesAll_holdsCompletions {prompt : Bytes} (hprompt : prompt ∈ inPlay)
    {callbacks : ℕ → TextCallback} :
    ∀ (order : List ℕ) {cache after : ArcaMap}, order.Nodup →
      (0 ∈ order → Misses engine hash gen cache prompt →
        LetsFinish engine gen prompt (callbacks 0)) →
      HoldsCompletions engine hash gen inPlay cache →
      ServesAll engine hash prompt cache
        (order.map fun i => (conclaveAttempt gen i, callbacks i)) after →
      HoldsCompletions engine hash gen inPlay after := by
  intro order
  induction order with
  | nil =>
      intro cache after _ _ hholds hserves
      rw [show after = cache from hserves]
      exact hholds
  | cons i rest ih =>
      intro cache after hnodup hfinish hholds hserves
      obtain ⟨hnew, hnodup'⟩ := List.nodup_cons.mp hnodup
      obtain ⟨reply, between, hserves, hrest⟩ := hserves
      by_cases hi : i = 0
      · subst hi
        have hbetween := serves_holdsCompletions hinj hready hprompt hserves
          (hfinish (List.mem_cons_self ..)) hholds
        exact ih hnodup' (fun hmem => absurd hmem hnew) hbetween hrest
      · obtain rfl := serves_uncached (useArca_explorer hi) hserves
        exact ih hnodup' (fun hmem => hfinish (List.mem_cons_of_mem _ hmem)) hholds hrest

omit [IsStrictOrderedRing K] hinj hready in
theorem letsFinish_takeAll (prompt : Bytes) : LetsFinish engine gen prompt takeAll :=
  fun _ _ _ _ _ _ => rfl

/-- One call of the engine. -/
theorem performs_holdsCompletions {cache after : ArcaMap} {call : EngineCall}
    (hprompt : call.prompt ∈ inPlay) (hperforms : Performs engine hash gen cache call after)
    (hwhole : StoresWhole engine hash gen cache call)
    (hholds : HoldsCompletions engine hash gen inPlay cache) :
    HoldsCompletions engine hash gen inPlay after := by
  cases call with
  | generateStream prompt callback =>
      obtain ⟨reply, hserves⟩ := hperforms
      exact serves_holdsCompletions hinj hready hprompt hserves hwhole hholds
  | generate prompt =>
      obtain ⟨reply, hserves⟩ := hperforms
      exact serves_holdsCompletions hinj hready hprompt hserves
        (fun _ => letsFinish_takeAll prompt) hholds
  | generateBest prompt n flagUp =>
      rw [Performs] at hperforms
      split at hperforms
      · obtain ⟨reply, hserves⟩ := hperforms
        exact serves_holdsCompletions hinj hready hprompt hserves
          (fun _ => letsFinish_takeAll prompt) hholds
      · split at hperforms
        · rename_i hkind
          obtain ⟨order, hperm, hserves⟩ := hperforms
          exact servesAll_holdsCompletions hinj hready hprompt order
            (hperm.nodup_iff.mpr List.nodup_range) (fun _ => hwhole hkind) hholds hserves
        · obtain ⟨attempts, -, -, hserves⟩ := hperforms
          exact servesAll_holdsCompletions hinj hready hprompt (List.range attempts)
            List.nodup_range (fun _ _ => letsFinish_takeAll prompt) hholds hserves

/-- In every run of calls with one configuration that each let the completion they store
finish, the cache only ever holds complete completions. -/
theorem cache_complete {cache : ArcaMap}
    (hreached : Reached engine hash gen inPlay (StoresWhole engine hash gen) cache) :
    HoldsCompletions engine hash gen inPlay cache := by
  induction hreached with
  | empty =>
      intro prompt _ text htext
      cases htext
  | call _ hplay hallowed hperforms ih =>
      exact performs_holdsCompletions hinj hready hplay hperforms hallowed ih

end Complete

/-! ## An engine that repeats itself -/

/-- A classic engine whose model says `a` until its budget is spent. -/
def repeatingEngine : ReameEngine ℚ where
  lib := .rational
  modelTag := ascii "m"
  path := .classic { blobBackend with
    tokenize := fun _ _ => [0]
    tokenPiece := fun _ => ascii "a"
    vocabSize_pos := blobBackend_vocabSize_pos
    length_logits := blobBackend_length_logits }

/-- Two tokens, greedily. -/
def twoTokens : GenerationConfig ℚ := Scheduler.greedyConfig 2

/-- The key of the prompt `hi`, for a hash that is constant. -/
def hiKey : Bytes := cacheKey (fun _ => 0) repeatingEngine.modelTag (ascii "hi") twoTokens

/-- The cache after the given completion of `hi` has been stored. -/
def hiStored (text : Bytes) : ArcaMap := Function.update (fun _ => none) hiKey (some text)

theorem repeatingEngine_whole :
    repeatingEngine.Produces (ascii "hi") twoTokens takeAll ⟨none, [ascii "a", ascii "a"]⟩ :=
  ⟨⟨⟨[], 0, 0⟩, none, []⟩, by simp [TrustedCache], by decide +kernel⟩

/-- A request that takes everything, then one that stops at its first piece, which by then
is the cached completion. -/
theorem cache_complete_second_request :
    Reached repeatingEngine (fun _ => 0) twoTokens {ascii "hi"}
        (StoresWhole repeatingEngine (fun _ => 0) twoTokens) (hiStored (ascii "aa")) ∧
      HoldsCompletions repeatingEngine (fun _ => 0) twoTokens {ascii "hi"}
        (hiStored (ascii "aa")) := by
  have hempty : Reached repeatingEngine (fun _ => 0) twoTokens {ascii "hi"}
      (StoresWhole repeatingEngine (fun _ => 0) twoTokens) fun _ => none := .empty
  have hfirst : Performs repeatingEngine (fun _ => 0) twoTokens (fun _ => none)
      (.generate (ascii "hi")) (hiStored (ascii "aa")) := ⟨_, repeatingEngine_whole, rfl⟩
  have hstored : hiStored (ascii "aa") hiKey = some (ascii "aa") := Function.update_self ..
  have hsecond : Performs repeatingEngine (fun _ => 0) twoTokens (hiStored (ascii "aa"))
      (.generateStream (ascii "hi") fun _ => .stop) (hiStored (ascii "aa")) := by
    refine ⟨⟨none, [ascii "aa"]⟩, ?_⟩
    rw [Serves, if_pos (by decide)]
    dsimp only
    rw [show hiStored (ascii "aa") (cacheKey _ _ _ _) = _ from hstored]
    exact ⟨by decide, rfl⟩
  have hhit : StoresWhole repeatingEngine (fun _ => 0) twoTokens (hiStored (ascii "aa"))
      (.generateStream (ascii "hi") fun _ => .stop) := fun hmiss => by
    cases hstored.symm.trans hmiss
  have hreached := (hempty.call (by rfl) (by trivial) hfirst).call (by rfl) hhit hsecond
  have hready : ∀ prompt ∈ ({ascii "hi"} : Set Bytes), repeatingEngine.Ready
      (repeatingEngine.backend.tokenize prompt true) twoTokens := fun _ _ => trivial
  exact ⟨hreached, cache_complete (Set.injOn_singleton ..) hready hreached⟩

/-- A callback that stops after the first piece: the truncated completion is stored. -/
theorem truncated_completion_stored :
    Reached repeatingEngine (fun _ => 0) twoTokens {ascii "hi"} (fun _ _ => True)
        (hiStored (ascii "a")) ∧
      repeatingEngine.Produces (ascii "hi") twoTokens takeAll ⟨none, [ascii "a", ascii "a"]⟩ ∧
      ¬ HoldsCompletions repeatingEngine (fun _ => 0) twoTokens {ascii "hi"}
        (hiStored (ascii "a")) := by
  have hcut : repeatingEngine.Produces (ascii "hi") twoTokens (fun _ => .stop)
      ⟨none, [ascii "a"]⟩ :=
    ⟨⟨⟨[], 0, 0⟩, none, []⟩, by simp [TrustedCache], by decide +kernel⟩
  have hperforms : Performs repeatingEngine (fun _ => 0) twoTokens (fun _ => none)
      (.generateStream (ascii "hi") fun _ => .stop) (hiStored (ascii "a")) := ⟨_, hcut, rfl⟩
  refine ⟨Reached.empty.call (by rfl) (by trivial) hperforms, repeatingEngine_whole, fun hholds => ?_⟩
  have hstored : hiStored (ascii "a") hiKey = some (ascii "a") := Function.update_self ..
  have htext := ((hholds (ascii "hi") rfl (ascii "a") hstored).2 _ repeatingEngine_whole).2
  exact absurd htext (by decide)

end Reame.Engine
