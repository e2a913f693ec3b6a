import Reame.Engine.Modes
import Reame.Foundation.Streaming

/-!
# Greedy generations as streams

With the temperature off, what an engine delivers next is a function of the prompt and of
what it has delivered: `nextToken`.  The three paths differ only in when they end a
generation.  Each of them delivers the stream of `nextToken` to its caller, as far as the
caller wants it (`generates_streams`), and does deliver it (`exists_generates`).
-/

namespace Reame.Engine

open Reame.Core Reame.Cache Reame.Speculative

variable {K : Type*} [Field K] [LinearOrder K]

namespace ReameEngine

variable (engine : ReameEngine K)

/-- When a path ends a generation: the budget and the context, each checked before or
after a token. -/
def Ended (gen : GenerationConfig K) (prompt delivered : List TokenId) : Prop :=
  match engine.path.kind with
  | .classic => gen.maxTokens ≤ delivered.length ∨
      (delivered ≠ [] ∧ engine.nCtx ≤ prompt.length + delivered.length)
  | .speculative => gen.maxTokens ≤ delivered.length ∨
      engine.nCtx ≤ prompt.length + delivered.length
  | .parallel => delivered ≠ [] ∧ (gen.maxTokens ≤ delivered.length ∨
      engine.nCtx ≤ prompt.length + delivered.length)

instance (gen : GenerationConfig K) (prompt delivered : List TokenId) :
    Decidable (engine.Ended gen prompt delivered) := by
  unfold Ended
  cases engine.path.kind <;> infer_instance

/-- The token greedy decoding picks after a history. -/
def pick (gen : GenerationConfig K) (history : List TokenId) : TokenId :=
  greedyToken gen (engine.backend.logits history) history

/-- What is delivered next. -/
def nextToken (gen : GenerationConfig K) (prompt delivered : List TokenId) : Option TokenId :=
  if engine.Ended gen prompt delivered then none
  else
    let t := engine.pick gen (prompt ++ delivered)
    if engine.backend.isEog t then none else some t

/-- Whether the caller wants more. -/
def wantsMore (echoed : List Bytes) (callback : TextCallback) (delivered : List TokenId) : Bool :=
  engine.onToken echoed callback delivered = .keepGoing

/-- One delivery. -/
abbrev streamStep (tokens : List TokenId) (echoed : List Bytes) (gen : GenerationConfig K)
    (callback : TextCallback) : List TokenId → List TokenId ⊕ List TokenId :=
  Streaming.step (engine.nextToken gen tokens) (engine.wantsMore echoed callback)

variable {engine} {gen : GenerationConfig K} {tokens delivered : List TokenId}
  {echoed : List Bytes} {callback : TextCallback}

theorem nextToken_ended (hended : engine.Ended gen tokens delivered) :
    engine.nextToken gen tokens delivered = none := if_pos hended

theorem nextToken_eog (heog : engine.backend.isEog (engine.pick gen (tokens ++ delivered))) :
    engine.nextToken gen tokens delivered = none := by
  unfold nextToken
  split
  · rfl
  · exact if_pos heog

theorem nextToken_some (hended : ¬ engine.Ended gen tokens delivered)
    (heog : ¬ engine.backend.isEog (engine.pick gen (tokens ++ delivered))) :
    engine.nextToken gen tokens delivered = some (engine.pick gen (tokens ++ delivered)) := by
  rw [nextToken, if_neg hended]
  exact if_neg heog

theorem nextToken_eq_none_iff : engine.nextToken gen tokens delivered = none ↔
    engine.Ended gen tokens delivered ∨
      engine.backend.isEog (engine.pick gen (tokens ++ delivered)) = true := by
  by_cases hended : engine.Ended gen tokens delivered
  · exact iff_of_true (nextToken_ended hended) (.inl hended)
  · by_cases heog : engine.backend.isEog (engine.pick gen (tokens ++ delivered)) = true
    · exact iff_of_true (nextToken_eog heog) (.inr heog)
    · rw [nextToken_some hended heog]
      exact iff_of_false (by simp) (not_or.mpr ⟨hended, heog⟩)

/-- A token after which the caller stops. -/
theorem exits_stop {t : TokenId} (hnext : engine.nextToken gen tokens delivered = some t)
    {answer : CallbackResult} (hanswer : engine.onToken echoed callback (delivered ++ [t]) = answer)
    (hstop : answer ≠ .keepGoing) :
    Loop.Exits (engine.streamStep tokens echoed gen callback) delivered (delivered ++ [t]) := by
  refine .leave ?_
  rw [streamStep, Streaming.step_of_some hnext, if_neg (by simpa [wantsMore, hanswer] using hstop)]

/-- A token after which the caller goes on. -/
theorem exits_more {t : TokenId} {out : List TokenId}
    (hnext : engine.nextToken gen tokens delivered = some t)
    (hmore : engine.onToken echoed callback (delivered ++ [t]) = .keepGoing)
    (hrest : Loop.Exits (engine.streamStep tokens echoed gen callback) (delivered ++ [t]) out) :
    Loop.Exits (engine.streamStep tokens echoed gen callback) delivered out := by
  refine .next ?_ hrest
  rw [streamStep, Streaming.step_of_some hnext, if_pos (by simpa [wantsMore] using hmore)]

/-- The end of the stream. -/
theorem exits_end (hnext : engine.nextToken gen tokens delivered = none) :
    Loop.Exits (engine.streamStep tokens echoed gen callback) delivered delivered :=
  .leave (Streaming.step_of_none hnext)

/-- A reply that delivers the stream from some point on: all of it, or up to where the
caller stopped or threw. -/
def Streams (engine : ReameEngine K) (tokens : List TokenId) (echoed : List Bytes)
    (gen : GenerationConfig K) (callback : TextCallback) (delivered : List TokenId)
    (reply : Reply) : Prop :=
  ∃ out, Loop.Exits (engine.streamStep tokens echoed gen callback) delivered out ∧
    reply = engine.replyOf echoed reply.error out ∧
    (reply.error = none ∨ engine.onToken echoed callback out = .throws)

/-! ## The classic path -/

section Classic

variable [IsStrictOrderedRing K]

/-- The classic loop, from any point of a generation. -/
theorem classicLoop_streams {lib : StdLib K} {modelTag : Bytes} {backend : StatefulBackend K}
    (htemp : gen.temperature ≤ 0) :
    ∀ (left : ℕ) (delivered : List TokenId) (s : ClassicState K),
      s.tokens = tokens ++ delivered → s.kv.Holds s.tokens → s.logits = backend.logits s.tokens →
      s.sampler.config = gen → s.pieces = echoed ++ delivered.map backend.tokenPiece →
      left = (gen.maxTokens - delivered.length).toNat →
      (delivered = [] ∨ s.tokens.length < backend.contextLength) →
      Streams ⟨lib, modelTag, .classic backend⟩ tokens echoed gen callback delivered
        (classicLoop lib backend callback left s).1 := by
  intro left
  induction left with
  | zero =>
      intro delivered s _ _ _ _ hpieces hleft _
      refine ⟨delivered, exits_end (nextToken_ended (.inl (by omega))), ?_, .inl rfl⟩
      simp only [classicLoop, replyOf, hpieces]
      rfl
  | succ left ih =>
      intro delivered s htokens hkv hlogits hconfig hpieces hleft hroom
      let engine : ReameEngine K := ⟨lib, modelTag, .classic backend⟩
      have hgreedy : s.sampler.config.temperature ≤ 0 := by rw [hconfig]; exact htemp
      have hne : s.logits ≠ [] := by rw [hlogits]; exact backend.logits_ne_nil s.tokens
      have hsample := sample_greedy lib hgreedy hne s.tokens
      have hpick : (greedyToken s.sampler.config s.logits s.tokens : TokenId) =
          engine.pick gen (tokens ++ delivered) := by
        rw [pick, hconfig, hlogits, htokens]
        rfl
      have hnot : ¬ engine.Ended gen tokens delivered := by
        rintro (hbudget | ⟨hne, hfull⟩)
        · omega
        · rcases hroom with rfl | hroom
          · exact hne rfl
          · rw [htokens, List.length_append] at hroom
            exact absurd hfull (not_le.mpr hroom)
      rw [classicLoop, hsample, hpick]
      dsimp only
      set t := engine.pick gen (tokens ++ delivered) with ht
      split
      · rename_i heog
        refine ⟨delivered, exits_end (nextToken_eog heog), ?_, .inl rfl⟩
        simp only [replyOf, hpieces]
        rfl
      · rename_i heog
        have hnext : engine.nextToken gen tokens delivered = some t := nextToken_some hnot heog
        have hpieces' : s.pieces ++ [backend.tokenPiece t] =
            echoed ++ (delivered ++ [t]).map backend.tokenPiece := by simp [hpieces]
        have honToken : engine.onToken echoed callback (delivered ++ [t]) =
            callback (s.pieces ++ [backend.tokenPiece t]) := by rw [hpieces']; rfl
        rw [hpieces'] at honToken ⊢
        split
        · rename_i hthrows
          rw [← honToken] at hthrows
          exact ⟨delivered ++ [t], exits_stop hnext hthrows (by simp), rfl, .inr hthrows⟩
        · rename_i hstop
          rw [← honToken] at hstop
          exact ⟨delivered ++ [t], exits_stop hnext hstop (by simp), rfl, .inl rfl⟩
        · rename_i hmore
          rw [← honToken] at hmore
          have hlength : (s.tokens ++ [t]).length = tokens.length + (delivered ++ [t]).length := by
            simp [htokens]
          split
          · rename_i hfull
            refine ⟨delivered ++ [t], exits_more hnext hmore (exits_end (nextToken_ended
              (.inr ⟨by simp, ?_⟩))), rfl, .inl rfl⟩
            rw [← hlength]
            exact hfull
          · rename_i hspace
            split
            · rename_i hlast
              refine ⟨delivered ++ [t], exits_more hnext hmore (exits_end (nextToken_ended
                (.inl ?_))), rfl, .inl rfl⟩
              simp only [List.length_append, List.length_singleton]
              omega
            · rename_i hleft'
              have hcontext := backend.contextLength_le
              have hbelow : s.tokens.length < 2 ^ 31 := by
                rw [List.length_append, List.length_singleton] at hspace
                omega
              obtain ⟨kv, hdecode, hholds⟩ := backend.decodeAppend_next hkv t hbelow
              rw [hdecode]
              dsimp only
              obtain ⟨out, hexits, hreply, herror⟩ := ih (delivered ++ [t])
                { s with
                  sampler := s.sampler
                  tokens := s.tokens ++ [t]
                  pieces := echoed ++ (delivered ++ [t]).map backend.tokenPiece
                  logits := backend.logits (s.tokens ++ [t])
                  kv }
                (by simp [htokens]) hholds rfl hconfig rfl
                (by simp only [List.length_append, List.length_singleton]; omega)
                (.inr (not_le.mp hspace))
              exact ⟨out, exits_more hnext hmore hexits, hreply, herror⟩

end Classic

/-! ## The speculative path -/

/-- Plain greedy decoding, which speculation refines, from any point of a generation. -/
theorem greedyStep_streams {lib : StdLib K} {modelTag : Bytes} {decoder : Decoder K}
    {p p' : Progress} {e : Exit}
    (hexits : Loop.Exits (ReameEngine.decoderCall ⟨lib, modelTag, .speculative decoder⟩ decoder gen
      echoed callback).greedyStep p (e, p'))
    (hhistory : p.history = tokens ++ p.delivered) (hemitted : p.emitted = p.delivered.length) :
    Loop.Exits (streamStep ⟨lib, modelTag, .speculative decoder⟩ tokens echoed gen callback)
        p.delivered p'.delivered ∧
      (faultOf e = none ∨ onToken ⟨lib, modelTag, .speculative decoder⟩ echoed callback
        p'.delivered = .throws) := by
  let engine : ReameEngine K := ⟨lib, modelTag, .speculative decoder⟩
  let call := engine.decoderCall decoder gen echoed callback
  -- The token the step delivers, and how the step goes on with it.
  have hpick : ∀ q : Progress, q.history = tokens ++ q.delivered →
      (call.greedyNext q.history : TokenId) = engine.pick gen (tokens ++ q.delivered) :=
    fun q hq => by rw [hq]; rfl
  have hended : ∀ q : Progress, q.history = tokens ++ q.delivered →
      q.emitted = q.delivered.length → ((q.emitted < call.maxTokens ∧ q.history.length < call.nCtx) ↔
        ¬ engine.Ended gen tokens q.delivered) := by
    intro q hq hq'
    have hnCtx : call.nCtx = engine.nCtx := rfl
    have hmax : call.maxTokens = gen.maxTokens.toNat := rfl
    rw [hq, hq', List.length_append, hnCtx, hmax]
    change _ ↔ ¬ (_ ∨ _)
    omega
  generalize hout : (e, p') = out at hexits
  induction hexits with
  | @leave q out hstep =>
      subst hout
      unfold Call.greedyStep at hstep
      split at hstep
      · rename_i hrunning
        have hnot := (hended q hhistory hemitted).mp hrunning
        unfold Call.deliver at hstep
        rw [hpick q hhistory] at hstep
        split at hstep
        · rename_i heog
          cases hstep
          exact ⟨exits_end (nextToken_eog heog), .inl rfl⟩
        · rename_i heog
          have hnext := nextToken_some hnot heog
          split at hstep
          · rename_i hthrows
            cases hstep
            exact ⟨exits_stop hnext hthrows (by simp), .inr hthrows⟩
          · rename_i hstop
            cases hstep
            exact ⟨exits_stop hnext hstop (by simp), .inl rfl⟩
          · cases hstep
      · rename_i hover
        cases hstep
        refine ⟨exits_end (nextToken_ended ?_), .inl rfl⟩
        exact not_not.mp fun hnot => hover ((hended _ hhistory hemitted).mpr hnot)
  | @next q after out hstep hrest ih =>
      unfold Call.greedyStep at hstep
      split at hstep
      · rename_i hrunning
        have hnot := (hended q hhistory hemitted).mp hrunning
        unfold Call.deliver at hstep
        rw [hpick q hhistory] at hstep
        split at hstep
        · cases hstep
        · rename_i heog
          split at hstep
          · cases hstep
          · cases hstep
          · rename_i hmore
            cases hstep
            obtain ⟨hexits, herror⟩ := ih (by simp [hhistory]) (by simp [hemitted]) hout
            exact ⟨exits_more (nextToken_some hnot heog) hmore hexits, herror⟩
      · cases hstep

/-! ## The parallel path -/

section Parallel

variable [IsStrictOrderedRing K]

/-- A dialogue with the scheduler, from any point of a generation. -/
theorem advance_streams {lib : StdLib K} {modelTag : Bytes} {backend : SeqBackend K}
    {nParallel : ℤ} (htemp : gen.temperature ≤ 0) {d : Dialogue K} {outcome : Outcome}
    (hexits : Loop.Exits (Scheduler.advance ⟨lib, backend, nParallel⟩) d outcome)
    (hhistory : d.history = tokens ++ d.delivered) (hemitted : d.emitted = d.delivered.length)
    (hgen : d.gen = gen) (hconfig : d.sampler.config = gen)
    (honToken : d.onToken = onToken ⟨lib, modelTag, .parallel backend nParallel⟩ echoed callback)
    (hgoing : ¬ Ended ⟨lib, modelTag, .parallel backend nParallel⟩ gen tokens d.delivered) :
    Loop.Exits (streamStep ⟨lib, modelTag, .parallel backend nParallel⟩ tokens echoed gen callback)
        d.delivered outcome.delivered ∧
      (outcome.error = none ∨ onToken ⟨lib, modelTag, .parallel backend nParallel⟩ echoed callback
        outcome.delivered = .throws) := by
  let engine : ReameEngine K := ⟨lib, modelTag, .parallel backend nParallel⟩
  have hsample : ∀ q : Dialogue K, q.history = tokens ++ q.delivered → q.sampler.config = gen →
      q.sampler.sample lib (backend.logits q.history) q.history =
        (.ok (engine.pick gen (tokens ++ q.delivered)), q.sampler) := by
    intro q hq hq'
    have hgreedy : q.sampler.config.temperature ≤ 0 := by rw [hq']; exact htemp
    rw [sample_greedy lib hgreedy (backend.logits_ne_nil _), hq', hq]
    rfl
  induction hexits with
  | @leave q out hstep =>
      unfold Scheduler.advance at hstep
      rw [hsample q hhistory hconfig] at hstep
      dsimp only at hstep
      split at hstep
      · rename_i heog
        cases hstep
        exact ⟨exits_end (nextToken_eog heog), .inl rfl⟩
      · rename_i heog
        have hnext := nextToken_some hgoing heog
        rw [honToken] at hstep
        split at hstep
        · rename_i hthrows
          cases hstep
          exact ⟨exits_stop hnext hthrows (by simp), .inr hthrows⟩
        · rename_i hstop
          cases hstep
          exact ⟨exits_stop hnext hstop (by simp), .inl rfl⟩
        · rename_i hmore
          split at hstep
          · rename_i hover
            cases hstep
            refine ⟨exits_more hnext hmore (exits_end (nextToken_ended ⟨by simp, ?_⟩)), .inl rfl⟩
            rw [hgen, hemitted, hhistory] at hover
            have hnCtx : Scheduler.nCtx ⟨lib, backend, nParallel⟩ = engine.nCtx := rfl
            rw [hnCtx] at hover
            simpa [Nat.add_assoc] using hover
          · cases hstep
  | @next q after out hstep hrest ih =>
      unfold Scheduler.advance at hstep
      rw [hsample q hhistory hconfig] at hstep
      dsimp only at hstep
      split at hstep
      · cases hstep
      · rename_i heog
        rw [honToken] at hstep
        split at hstep
        · cases hstep
        · cases hstep
        · rename_i hmore
          split at hstep
          · cases hstep
          · rename_i hover
            cases hstep
            have hgoing' : ¬ engine.Ended gen tokens
                (q.delivered ++ [engine.pick gen (tokens ++ q.delivered)]) := by
              rintro ⟨-, hended⟩
              apply hover
              have hnCtx : Scheduler.nCtx ⟨lib, backend, nParallel⟩ = engine.nCtx := rfl
              rw [hgen, hemitted, hhistory, hnCtx]
              simpa [Nat.add_assoc] using hended
            obtain ⟨hexits, herror⟩ := ih (by simp [hhistory]) (by simp [hemitted]) hgen hconfig
              rfl hgoing'
            exact ⟨exits_more (nextToken_some hgoing heog) hmore hexits, herror⟩

end Parallel

/-! ## Every path -/

section Paths

variable [IsStrictOrderedRing K] {reply : Reply}

theorem classicGenerate_streams {lib : StdLib K} {modelTag : Bytes} {backend : StatefulBackend K}
    (htemp : gen.temperature ≤ 0) (hne : tokens ≠ []) (hlength : tokens.length ≤ 2 ^ 31)
    {memory : ClassicMemory} (htrusted : TrustedCache modelTag backend memory.cache tokens) :
    Streams ⟨lib, modelTag, .classic backend⟩ tokens echoed gen callback []
      (classicGenerate lib backend memory tokens echoed gen callback).1 := by
  have hplain : ∀ plain : ClassicMemory, plain.cache = none →
      Streams ⟨lib, modelTag, .classic backend⟩ tokens echoed gen callback []
        (classicGenerate lib backend plain tokens echoed gen callback).1 := by
    intro plain hnone
    obtain ⟨hprefill, hholds⟩ := prefillPrompt_plain backend hnone hne hlength
    rw [classicGenerate, hprefill]
    exact classicLoop_streams htemp _ [] _ (by simp) hholds rfl rfl (by simp) (by simp) (.inl rfl)
  cases hcache : memory.cache with
  | none => exact hplain memory hcache
  | some c =>
      obtain ⟨zstd, models, inPlay, rfl, rfl, hinj, hsound, hplay⟩ := htrusted c hcache
      have hnone : ({ memory with cache := none } : ClassicMemory).cache = none := rfl
      rw [(classicGenerate_cached hinj lib hcache hsound hne hlength hplay echoed gen callback
        hnone).1]
      exact hplain _ hnone

/-- A request that is generated gets the stream of `nextToken`. -/
theorem generates_streams (htemp : gen.temperature ≤ 0) (hready : engine.Ready tokens gen)
    (hne : tokens ≠ []) (hfits : tokens.length ≤ engine.nCtx)
    (hgenerates : engine.Generates tokens echoed gen callback reply) :
    engine.Streams tokens echoed gen callback [] reply := by
  obtain ⟨lib, modelTag, path⟩ := engine
  cases path with
  | classic backend =>
      obtain ⟨memory, htrusted, rfl⟩ := hgenerates
      exact classicGenerate_streams htemp hne (hfits.trans backend.contextLength_le) htrusted
  | speculative decoder =>
      obtain ⟨self, draftState, hlengths, result, enough, hfuel, rfl⟩ := hgenerates
      let call := decoderCall ⟨lib, modelTag, .speculative decoder⟩ decoder gen echoed callback
      have hsources : Call.SourcesInVocab call tokens :=
        ⟨hready.attached, hready.faultFree, hready.model, hready.lookup⟩
      have hroom : tokens.length ≤ call.nCtx := hfits
      obtain ⟨e, s, hexits, hgreedy⟩ := Call.exists_exits htemp hsources
        (Call.initial_inSync hne self draftState) hlengths
      obtain ⟨enough', hfuel'⟩ := Call.generateStream_of_exits hne hroom hexits
      have hresult := (hfuel (max enough enough') (le_max_left ..)).symm.trans
        (hfuel' (max enough enough') (le_max_right ..))
      obtain rfl := Option.some.inj hresult
      have hhistory : (call.initial self draftState tokens).progress.history = tokens ++ [] := by
        simp [LoopState.progress, Call.initial]
      obtain ⟨hstream, herror⟩ := greedyStep_streams hgreedy hhistory rfl
      exact ⟨_, hstream, rfl, herror⟩
  | parallel backend nParallel =>
      obtain ⟨hparallel, hok⟩ := hready
      obtain ⟨events, id, s, later, hsubmit, hfinished, rfl⟩ := hgenerates
      let d := Scheduler.start ⟨lib, backend, nParallel⟩ tokens gen
        (onToken ⟨lib, modelTag, .parallel backend nParallel⟩ echoed callback)
      obtain ⟨outcome, hexits⟩ := Scheduler.exists_outcome ⟨lib, backend, nParallel⟩ d
      obtain ⟨hfollows, -⟩ := Scheduler.submitted_follows_dialogue hok hparallel
        (Scheduler.coherent_run (Scheduler.coherent_initial _) events) hsubmit hexits
      obtain ⟨hreceived, herror⟩ := (hfollows later).2 hfinished
      have hhistory : d.history = tokens ++ d.delivered := by simp [d, Scheduler.start]
      have honToken : d.onToken =
          onToken ⟨lib, modelTag, .parallel backend nParallel⟩ echoed callback := rfl
      obtain ⟨hstream, herror'⟩ := advance_streams htemp hexits hhistory rfl rfl rfl honToken
        fun hended => hended.1 rfl
      refine ⟨outcome.delivered, hstream, ?_, ?_⟩
      · rw [hreceived]
        rfl
      · simp only [replyOf, herror]
        exact herror'

/-- A request that has passed the checks is generated. -/
theorem exists_generates (htemp : gen.temperature ≤ 0) (hready : engine.Ready tokens gen)
    (hne : tokens ≠ []) (hfits : tokens.length ≤ engine.nCtx) (echoed : List Bytes)
    (callback : TextCallback) : ∃ reply, engine.Generates tokens echoed gen callback reply := by
  obtain ⟨lib, modelTag, path⟩ := engine
  cases path with
  | classic backend => exact ⟨_, ⟨⟨[], 0, 0⟩, none, []⟩, by simp [TrustedCache], rfl⟩
  | speculative decoder =>
      let call := decoderCall ⟨lib, modelTag, .speculative decoder⟩ decoder gen echoed callback
      have hsources : Call.SourcesInVocab call tokens :=
        ⟨hready.attached, hready.faultFree, hready.model, hready.lookup⟩
      have hoff : (call.initial ⟨0, false, {}⟩ ⟨[], 0⟩ tokens).self.speculativeActive = false := by
        simp only [Call.initial, Call.draftPrefill]
        split <;> simp
      have hlengths := fun visited (hvisit : Loop.Visits call.step
          (call.initial ⟨0, false, {}⟩ ⟨[], 0⟩ tokens) visited) =>
        Call.draftLengthOk_of_inactive hoff hvisit
      obtain ⟨e, s, hexits, -⟩ := Call.exists_exits htemp hsources
        (Call.initial_inSync hne ⟨0, false, {}⟩ ⟨[], 0⟩) hlengths
      have hroom : tokens.length ≤ call.nCtx := hfits
      obtain ⟨enough, hfuel⟩ := Call.generateStream_of_exits hne hroom hexits
      exact ⟨_, _, _, hlengths, _, enough, hfuel, rfl⟩
  | parallel backend nParallel =>
      obtain ⟨hparallel, hok⟩ := hready
      let scheduler : Scheduler K := ⟨lib, backend, nParallel⟩
      have hroom : ¬ scheduler.nCtx < tokens.length := not_lt.mpr hfits
      have hsubmit : ∃ s, scheduler.submit scheduler.initial tokens gen (some
          (onToken ⟨lib, modelTag, .parallel backend nParallel⟩ echoed callback)) = .ok (1, s) := by
        rw [Scheduler.submit, if_neg hne, if_neg hroom]
        exact ⟨_, rfl⟩
      obtain ⟨s, hsubmit⟩ := hsubmit
      obtain ⟨outcome, hexits⟩ := Scheduler.exists_outcome scheduler (scheduler.start tokens gen
        (onToken ⟨lib, modelTag, .parallel backend nParallel⟩ echoed callback))
      obtain ⟨-, enough, henough⟩ := Scheduler.submitted_follows_dialogue hok hparallel
        (Scheduler.coherent_initial scheduler) hsubmit hexits
      have hfinished := henough (List.replicate enough .step)
        (by simp [Scheduler.stepCount, List.countP_replicate])
      exact ⟨_, [], 1, s, _, hsubmit, hfinished, rfl⟩

end Paths

end ReameEngine

end Reame.Engine
