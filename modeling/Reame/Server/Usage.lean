import Reame.Engine.TokenBudget
import Reame.Engine.ResponseCache
import Reame.Server.StreamedText

/-!
# The usage that a reply reports

A reply that is not a stream carries `usage.completion_tokens` and a `finish_reason`.  The
handler takes both from the number of times its callback is called.  That is the number of
tokens the model generates if there is one call for every token, and two paths of the engine
call back for something else:

* the echo of the prompt is handed to the callback first, and is counted as a token;
* a completion from the response cache is handed over in one piece, and counts as one token.

So the usage is exact if the prompt is not echoed, and the reply comes from the model or the
model would have said a single token (`usage_exact_iff`).  That the number of tokens and
`max_tokens` then agree on the `finish_reason` is due to the budgets of the three generation
paths.
-/

namespace Reame.Engine

open Reame.Core Reame.Cache

variable {K : Type*} [Field K] [LinearOrder K]

/-! ## The pieces of an answer -/

/-- What the response cache has for a request; it is not asked for every one. -/
def cachedCompletion (engine : ReameEngine K) (hash : Bytes → UInt64) (cache : ArcaMap)
    (prompt : Bytes) (gen : GenerationConfig K) : Option Bytes :=
  if useArca gen then cache (cacheKey hash engine.modelTag prompt gen) else none

/-- `generate_stream` may hand over these pieces, for a request for which the model may generate
these tokens. -/
inductive Answered (engine : ReameEngine K) (hash : Bytes → UInt64) (cache : ArcaMap)
    (prompt : Bytes) (gen : GenerationConfig K) : List Bytes → List TokenId → Prop
  | model {generated : List TokenId} (hmiss : cachedCompletion engine hash cache prompt gen = none)
      (hgenerated : engine.Generated prompt gen generated) :
      Answered engine hash cache prompt gen (engine.piecesOf prompt gen generated) generated
  | cache {hit : Bytes} {generated : List TokenId}
      (hhit : cachedCompletion engine hash cache prompt gen = some hit)
      (hgenerated : engine.Generated prompt gen generated) :
      Answered engine hash cache prompt gen [hit] generated

variable {engine : ReameEngine K} {hash : Bytes → UInt64} {cache : ArcaMap} {prompt : Bytes}
  {gen : GenerationConfig K} {pieces : List Bytes}

/-- These are the calls of `generate_stream` that end without an error, for a request that the
model can complete. -/
theorem serves_iff_answered (hcompletes : ∃ generated, engine.Generated prompt gen generated) :
    (∃ after, Serves engine hash cache prompt gen takeAll ⟨none, pieces⟩ after) ↔
      ∃ generated, Answered engine hash cache prompt gen pieces generated := by
  have hmodel : cachedCompletion engine hash cache prompt gen = none →
      (engine.Produces prompt gen takeAll ⟨none, pieces⟩ ↔
        ∃ generated, Answered engine hash cache prompt gen pieces generated) := by
    intro hmiss
    rw [ReameEngine.produces_iff_generated]
    constructor
    · rintro ⟨generated, hgenerated, rfl⟩
      exact ⟨generated, .model hmiss hgenerated⟩
    · rintro ⟨generated, hanswered⟩
      cases hanswered with
      | model _ hgenerated => exact ⟨generated, hgenerated, rfl⟩
      | cache hhit => cases hmiss.symm.trans hhit
  unfold Serves
  unfold cachedCompletion at hmodel
  split
  · rename_i hcold
    rw [if_pos hcold] at hmodel
    dsimp only
    split
    · rename_i hit hhit
      have hcached : cachedCompletion engine hash cache prompt gen = some hit := by
        rw [cachedCompletion, if_pos hcold, hhit]
      constructor
      · rintro ⟨after, hreply, -⟩
        obtain ⟨generated, hgenerated⟩ := hcompletes
        rw [show pieces = [hit] from congrArg Reply.pieces hreply]
        exact ⟨generated, .cache hcached hgenerated⟩
      · rintro ⟨generated, hanswered⟩
        cases hanswered with
        | model hmiss => cases hcached.symm.trans hmiss
        | cache hhit' =>
            obtain rfl := Option.some.inj (hcached.symm.trans hhit')
            exact ⟨cache, rfl, rfl⟩
    · rename_i hmiss
      rw [← hmodel hmiss]
      exact ⟨fun hserves => hserves.choose_spec.1, fun hproduces => ⟨_, hproduces, rfl⟩⟩
  · rename_i hwarm
    rw [if_neg hwarm] at hmodel
    rw [← hmodel rfl]
    exact ⟨fun hserves => hserves.choose_spec.1, fun hproduces => ⟨_, hproduces, rfl⟩⟩

end Reame.Engine

namespace Reame.Server

open Reame.Core Reame.Engine Throwing

variable {σ Num K : Type}

/-! ## What a client reads -/

/-- The body of a reply that is not a stream. -/
def repliedBody : List (WriterCall Num) → Option (Json Num)
  | [.begin 200 _, .chunk (.dump body), .close] => some body
  | _ => none

/-- A number. -/
def Json.number? : Json Num → Option Num
  | .number n => some n
  | _ => none

/-- `usage.completion_tokens`. -/
def Json.completionTokens (body : Json Num) : Option Num := do
  let usage ← body.get? (ascii "usage")
  let tokens ← usage.get? (ascii "completion_tokens")
  tokens.number?

/-- `choices[0].finish_reason`. -/
def Json.finishReason (body : Json Num) : Option Bytes := do
  let choice ← body.choice
  let reason ← choice.get? (ascii "finish_reason")
  reason.string?

namespace ApiHandler

variable (h : ApiHandler σ Num K) {s : HandlerState σ Num} {r : HttpRequest} {chat : Bool}
  {body answer : Json Num} {prompt : Bytes} {gen : GenerationConfig K}

/-- The body reports that the model has generated this many tokens, and whether that is all it
was allowed to. -/
structure UsageExact (gen : GenerationConfig K) (generated : ℕ) (answer : Json Num) : Prop where
  tokens : answer.completionTokens = some (h.json.ofInt generated)
  finish : answer.finishReason = some (ascii "length") ↔ (generated : ℤ) = gen.maxTokens

@[simp] theorem completionTokens_completionJson (chat : Bool) (out : GenerationOutcome) :
    (h.completionJson chat out).completionTokens = some (h.json.ofInt out.completionTokens) := by
  cases chat <;> rfl

@[simp] theorem finishReason_completionJson (chat : Bool) (out : GenerationOutcome) :
    (h.completionJson chat out).finishReason =
      some (if out.hitMaxTokens then ascii "length" else ascii "stop") := by
  cases chat <;> rfl

/-! ## What the handler counts -/

/-- Every piece is counted. -/
theorem completionTokens_of_deliver {generation : Generation σ} {out last : GenerationOutcome}
    {after : HandlerState σ Num}
    (hrun : deliver (fun _ => pure ()) generation out s = (.ok last, after)) :
    last.completionTokens = out.completionTokens + generation.pieces.length := by
  induction generation generalizing out s with
  | returns engine =>
      cases hrun
      exact (add_zero _).symm
  | throws e engine => cases hrun
  | piece text resume ih =>
      have hlast := ih none hrun
      rw [hlast, Generation.pieces, List.length_cons]
      push_cast
      ring

theorem counted_of_runGeneration {last : GenerationOutcome} {after : HandlerState σ Num}
    (hrun : h.runGeneration prompt gen (fun _ => pure ()) s = (.ok last, after)) :
    let pieces := (h.engine.generateStream s.engine prompt gen).pieces
    last.completionTokens = pieces.length ∧
      (last.hitMaxTokens = true ↔ gen.maxTokens ≤ pieces.length) := by
  rw [runGeneration_eq] at hrun
  cases hcount : h.engine.countTokens s.engine prompt with
  | error e =>
      rw [hcount] at hrun
      cases hrun
  | ok promptTokens =>
      simp only [hcount] at hrun
      rcases hdeliver : deliver (fun _ => pure ()) (h.engine.generateStream s.engine prompt gen)
        ⟨[], 0, promptTokens, false⟩ s with ⟨result, ended⟩
      rw [hdeliver] at hrun
      cases result with
      | error e => cases hrun
      | ok out =>
          cases hrun
          have hcounted := completionTokens_of_deliver hdeliver
          rw [zero_add] at hcounted
          exact ⟨hcounted, by rw [← hcounted]; exact decide_eq_true_iff⟩

/-- A reply that is not a stream is the outcome of the generation. -/
theorem exists_outcome_of_replyCalls (hfresh : s.calls = [])
    (hreplied : repliedBody (h.replyCalls chat false prompt gen s) = some answer) :
    ∃ out after, h.runGeneration prompt gen (fun _ => pure ()) s = (.ok out, after) ∧
      answer = h.completionJson chat out := by
  obtain ⟨after, hcalls, hcases⟩ := h.wholeReply_cases chat prompt gen s
  have hfailed : ∀ (e : Exception) (opened : HandlerState σ Num),
      h.wholeReply chat prompt gen s = (.error e, opened) →
        opened.calls = [] ∨ opened.calls =
          [.begin 200 (h.baseHeaders (ascii "application/json"))] → False := by
    intro e opened hthrows hopened
    rw [replyCalls, reply, if_neg Bool.false_ne_true, tryCatch_of_error hthrows] at hreplied
    -- What answers the exception begins the writer with another status.
    obtain ⟨errorBody, hafter | hafter⟩ := h.calls_generationFailed (s := opened) e <;>
      rcases hopened with hopened | hopened <;>
        · rw [hafter, hopened] at hreplied
          cases hreplied
  cases herror : h.generationError s.engine prompt gen (h.pieceError chat false) with
  | some e =>
      rw [herror] at hcases
      exact (hfailed e after hcases (.inl (hcalls.trans hfresh))).elim
  | none =>
      rw [herror] at hcases
      obtain ⟨out, hrun, hreply⟩ := hcases
      have heq := h.respond_eq (s := after) 200 (h.completionJson chat out)
      rw [← hreply, hcalls, hfresh] at heq
      cases hdump : (h.completionJson chat out).dumpError with
      | some e =>
          rw [hdump] at heq
          exact (hfailed e _ heq (.inr rfl)).elim
      | none =>
          rw [hdump] at heq
          rw [replyCalls, reply, if_neg Bool.false_ne_true, tryCatch_of_ok heq] at hreplied
          exact ⟨out, after, hrun, (Option.some.inj hreplied).symm⟩

/-- A body is exact if there was one piece for every token, and no more tokens than allowed. -/
theorem usageExact_iff_count (hnumbers : Function.Injective h.json.ofInt) (chat : Bool)
    {out : GenerationOutcome} {count generated : ℕ} (hcount : out.completionTokens = count)
    (hhit : out.hitMaxTokens = true ↔ gen.maxTokens ≤ count)
    (hbudget : (generated : ℤ) ≤ gen.maxTokens) :
    h.UsageExact gen generated (h.completionJson chat out) ↔ count = generated := by
  constructor
  · rintro ⟨htokens, -⟩
    rw [completionTokens_completionJson, Option.some.injEq, hcount] at htokens
    exact_mod_cast hnumbers htokens
  · rintro rfl
    refine ⟨by rw [completionTokens_completionJson, hcount], ?_⟩
    have hlength : out.hitMaxTokens = true ↔ (count : ℤ) = gen.maxTokens :=
      hhit.trans ⟨fun hle => le_antisymm hbudget hle, fun heq => heq.ge⟩
    rw [finishReason_completionJson, Option.some.injEq, ← hlength]
    cases out.hitMaxTokens with
    | true => simp
    | false => exact iff_of_false (by decide) (by simp)

section Requests

variable [Field K] [LinearOrder K] {engine : ReameEngine K} {hash : Bytes → UInt64}
  {cache : ArcaMap} {pieces : List Bytes} {generated : List TokenId}

omit h in
/-- There is one piece for every token unless the prompt is echoed, or a cached completion of
more or fewer tokens is handed over. -/
theorem length_pieces_iff (hanswered : Answered engine hash cache prompt gen pieces generated) :
    pieces.length = generated.length ↔ gen.echoPrompt = false ∧
      (cachedCompletion engine hash cache prompt gen ≠ none → generated.length = 1) := by
  cases hanswered with
  | model hmiss _ =>
      rw [ReameEngine.piecesOf, List.length_append, List.length_map]
      cases hecho : gen.echoPrompt with
      | true => simp
      | false => simp [hmiss]
  | @cache hit generated hhit _ =>
      have hcold : useArca gen = true := by
        by_contra hwarm
        rw [cachedCompletion, if_neg hwarm] at hhit
        cases hhit
      rw [List.length_singleton, hhit]
      simp [(useArca_iff.mp hcold).2, eq_comm]

/-- The usage and the `finish_reason` of a reply that is not a stream are those of the tokens
that the model generates for the request exactly if the prompt is not echoed and, where the
reply comes from the response cache, the model generates a single token. -/
theorem usage_exact_iff (hnumbers : Function.Injective h.json.ofInt) (hfresh : s.calls = [])
    (hasks : h.Asks s r chat false body prompt gen) (hbudget : 1 ≤ gen.maxTokens)
    (hanswered : Answered engine hash cache prompt gen pieces generated)
    (hpieces : (h.engine.generateStream s.engine prompt gen).pieces = pieces)
    (hreplied : repliedBody (h.handle r s).2.calls = some answer) :
    h.UsageExact gen generated.length answer ↔ gen.echoPrompt = false ∧
      (cachedCompletion engine hash cache prompt gen ≠ none → generated.length = 1) := by
  have hwithin : (generated.length : ℤ) ≤ gen.maxTokens := by
    cases hanswered with
    | model _ hgenerated => exact ReameEngine.length_le_of_generated hbudget hgenerated
    | cache _ hgenerated => exact ReameEngine.length_le_of_generated hbudget hgenerated
  rw [h.handle_of_asks hasks] at hreplied
  obtain ⟨out, after, hrun, rfl⟩ :=
    h.exists_outcome_of_replyCalls (s := takeSlot s) hfresh hreplied
  obtain ⟨hcount, hhit⟩ := h.counted_of_runGeneration hrun
  rw [show (h.engine.generateStream (takeSlot s).engine prompt gen).pieces = pieces from hpieces]
    at hcount hhit
  rw [h.usageExact_iff_count hnumbers chat hcount hhit hwithin, length_pieces_iff hanswered]

end Requests

/-! ## A prompt that the model continues with two tokens -/

/-- Two tokens, greedily. -/
def greedyTwo : GenerationConfig ℚ :=
  { GenerationConfig.initial with maxTokens := 2, temperature := 0 }

/-- The body of a request for them. -/
def greedyFields : List (Bytes × Json ℤ) :=
  [(ascii "max_tokens", .number 2), (ascii "prompt", .string (ascii "hi")),
    (ascii "temperature", .number 0)]

/-- A handler that reads this body from every request, and whose engine delivers the given
pieces. -/
def handingOver (pieces : List Bytes) : ApiHandler Unit ℤ ℚ :=
  { idle with
    json := { idle.json with parse := fun _ => some (.object greedyFields) }
    engine := { idle.engine with generateStream := fun _ _ _ => .rethrowing () pieces } }

theorem handingOver_asks (pieces : List Bytes) :
    (handingOver pieces).Asks started (completionRequest false) false false
      (.object greedyFields) (ascii "hi") greedyTwo :=
  ⟨rfl, rfl, rfl, show (0 : ℤ) < 10 by decide, rfl, rfl⟩

/-- The model says `a` until its budget is spent. -/
theorem repeatingEngine_generated : repeatingEngine.Generated (ascii "hi") greedyTwo [0, 0] :=
  ⟨⟨⟨[], 0, 0⟩, none, []⟩, by simp [TrustedCache], by decide +kernel⟩

/-- From the model, both tokens are counted. -/
theorem usage_exact_from_model :
    let h := handingOver [ascii "a", ascii "a"]
    ∃ answer, repliedBody (h.handle (completionRequest false) started).2.calls = some answer ∧
      h.UsageExact greedyTwo 2 answer := by
  intro h
  have hanswered : Answered repeatingEngine (fun _ => 0) (fun _ => none) (ascii "hi") greedyTwo
      [ascii "a", ascii "a"] [0, 0] := .model rfl repeatingEngine_generated
  refine ⟨h.completionJson false ⟨ascii "aa", 2, 0, true⟩, rfl, ?_⟩
  exact (h.usage_exact_iff (fun _ _ heq => heq) rfl (handingOver_asks _) (by decide) hanswered rfl
    rfl).mpr ⟨rfl, fun hcached => (hcached rfl).elim⟩

/-- From the cache, the completion counts as one token, and as one that the model ended. -/
theorem usage_from_cache :
    let h := handingOver [ascii "aa"]
    let cache : ArcaMap := Function.update (fun _ => none)
      (cacheKey (fun _ => 0) repeatingEngine.modelTag (ascii "hi") greedyTwo) (some (ascii "aa"))
    h.Asks started (completionRequest false) false false (.object greedyFields) (ascii "hi")
        greedyTwo ∧
      Serves repeatingEngine (fun _ => 0) (fun _ => none) (ascii "hi") greedyTwo takeAll
        ⟨none, [ascii "a", ascii "a"]⟩ cache ∧
      Answered repeatingEngine (fun _ => 0) cache (ascii "hi") greedyTwo [ascii "aa"] [0, 0] ∧
      ∃ answer, repliedBody (h.handle (completionRequest false) started).2.calls = some answer ∧
        answer.completionTokens = some 1 ∧ answer.finishReason = some (ascii "stop") ∧
        ¬ h.UsageExact greedyTwo 2 answer := by
  intro h cache
  have hcold : useArca greedyTwo = true := by decide
  have hhit : cachedCompletion repeatingEngine (fun _ => 0) cache (ascii "hi") greedyTwo =
      some (ascii "aa") := by
    rw [cachedCompletion, if_pos hcold]
    exact Function.update_self ..
  refine ⟨handingOver_asks _, ?_, .cache hhit repeatingEngine_generated,
    h.completionJson false ⟨ascii "aa", 1, 0, false⟩, rfl, rfl, rfl, fun hexact => ?_⟩
  · rw [Serves, if_pos hcold]
    exact ⟨ReameEngine.produces_iff_generated.mpr ⟨[0, 0], repeatingEngine_generated, rfl⟩, rfl⟩
  · exact absurd hexact.tokens (by decide)

end ApiHandler

end Reame.Server
