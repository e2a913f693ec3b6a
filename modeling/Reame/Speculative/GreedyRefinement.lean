import Reame.Speculative.Decoder

/-!
# Greedy speculation refines greedy decoding

What the decoder is for, with the temperature off, is sequential greedy decoding:
`greedyStep` appends the argmax after the current history until the budget, the
context, an end-of-generation token or the caller ends it.  This file proves that
the generation loop refines it, whether or not it speculates.

The invariant is `InSync`: while the loop runs, the target sequence holds the
history without its newest token.  A verified draft is a chain of greedy tokens
(`verifyLoop_greedy`), so one iteration that emits several tokens stands for as many
greedy steps (`emit_chain`); an iteration that only gives up on drafting stands for
none.

One branch escapes.  The truncation of a structural proposal converts `n_draft` to
`std::size_t`, and a negative length makes `resize` throw.  `DraftLengthOk` says that
an iteration does not take that branch.
-/

namespace Reame.Speculative

open Reame.Core

variable {K : Type*} [Field K] [LinearOrder K]

/-! ## Sequential greedy decoding -/

/-- What sequential decoding needs to remember. -/
structure Progress where
  history : List TokenId
  emitted : ℕ
  delivered : List TokenId

namespace Call

variable (call : Call K)

/-- The greedy continuation of a history. -/
def greedyNext (history : List TokenId) : ℕ :=
  greedyToken call.gen (call.decoder.target.logits history) history

/-- Hand one token to the caller. -/
def deliver (t : TokenId) (p : Progress) : Progress ⊕ (Exit × Progress) :=
  if call.decoder.target.isEog t then .inr (.returned, p)
  else
    match call.callback (p.delivered ++ [t]) with
    | .throws => .inr (.threw .callback, { p with delivered := p.delivered ++ [t] })
    | .stop => .inr (.returned, { p with delivered := p.delivered ++ [t] })
    | .keepGoing => .inl ⟨p.history ++ [t], p.emitted + 1, p.delivered ++ [t]⟩

/-- One step of sequential greedy decoding. -/
def greedyStep (p : Progress) : Progress ⊕ (Exit × Progress) :=
  if p.emitted < call.maxTokens ∧ p.history.length < call.nCtx then
    call.deliver (call.greedyNext p.history) p
  else .inr (.returned, p)

theorem greedyNext_lt (history : List TokenId) :
    call.greedyNext history < call.decoder.target.vocabSize := by
  have hlt := greedyToken_lt call.gen history
    (call.decoder.target.logits_ne_nil history)
  rwa [call.decoder.target.length_logits] at hlt

end Call

/-- The part of the loop state that sequential decoding has too. -/
def LoopState.progress (s : LoopState K) : Progress := ⟨s.history, s.emitted, s.delivered⟩

/-- `after` differs from `before` in the emitted tokens only. -/
structure SameButProgress (before after : LoopState K) : Prop where
  base : after.base = before.base
  lookupSkip : after.lookupSkip = before.lookupSkip
  targetKv : after.targetKv = before.targetKv
  draftState : after.draftState = before.draftState
  sampler : after.sampler = before.sampler
  acceptRng : after.acceptRng = before.acceptRng
  active : after.self.speculativeActive = before.self.speculativeActive
  draftLength : after.self.currentDraftTokens = before.self.currentDraftTokens

omit [Field K] [LinearOrder K] in
theorem SameButProgress.trans {a b c : LoopState K} (hab : SameButProgress a b)
    (hbc : SameButProgress b c) : SameButProgress a c :=
  ⟨hbc.base.trans hab.base, hbc.lookupSkip.trans hab.lookupSkip, hbc.targetKv.trans hab.targetKv,
    hbc.draftState.trans hab.draftState, hbc.sampler.trans hab.sampler,
    hbc.acceptRng.trans hab.acceptRng, hbc.active.trans hab.active,
    hbc.draftLength.trans hab.draftLength⟩

namespace Call

variable {call : Call K}

/-! ## Emission -/

omit [Field K] [LinearOrder K] in
theorem sameButProgress_push (s : LoopState K) (t : TokenId) : SameButProgress s (push s t) :=
  ⟨rfl, rfl, rfl, rfl, rfl, rfl, rfl, rfl⟩

variable (call) in
/-- Emitting one token delivers it, and goes on with the rest only while the loop
condition holds. -/
theorem emit_cons (t : TokenId) (rest : List TokenId) (s : LoopState K) :
    (∃ e s', call.emit (t :: rest) s = .inr (e, s') ∧
        call.deliver t s.progress = .inr (e, s'.progress)) ∨
      (call.deliver t s.progress = .inl (push s t).progress ∧
        call.emit (t :: rest) s =
          if call.Running (push s t) then call.emit rest (push s t) else .inl (push s t)) := by
  by_cases heog : call.decoder.target.isEog t
  · exact .inl ⟨.returned, s, by simp [emit, heog], by simp [deliver, heog]⟩
  · simp only [emit, deliver, heog, Bool.false_eq_true, if_false, LoopState.progress]
    cases hcallback : call.callback (s.delivered ++ [t]) with
    | throws => exact .inl ⟨_, _, rfl, rfl⟩
    | stop => exact .inl ⟨_, _, rfl, rfl⟩
    | keepGoing =>
        refine .inr ⟨rfl, ?_⟩
        by_cases hrun : call.Running (push s t)
        · rw [if_pos hrun, if_neg (by unfold Running at hrun; omega)]
        · rw [if_neg hrun, if_pos (by unfold Running at hrun; omega)]

theorem emit_same {tokens : List TokenId} {s s' : LoopState K}
    (hemit : call.emit tokens s = .inl s') : SameButProgress s s' := by
  induction tokens generalizing s with
  | nil =>
      obtain rfl : s = s' := by simpa [emit] using hemit
      exact ⟨rfl, rfl, rfl, rfl, rfl, rfl, rfl, rfl⟩
  | cons t rest ih =>
      rcases emit_cons call t rest s with ⟨e, s'', hleave, -⟩ | ⟨-, hstay⟩
      · rw [hleave] at hemit
        cases hemit
      · rw [hstay] at hemit
        split at hemit
        · exact (sameButProgress_push s t).trans (ih hemit)
        · cases hemit
          exact sameButProgress_push s t

/-- What emitting the tokens of a greedy chain comes to, when the loop goes on. -/
structure Emitted (call : Call K) (tokens : List TokenId) (s s' : LoopState K) : Prop where
  same : SameButProgress s s'
  replay : ∀ out, Loop.Exits call.greedyStep s'.progress out →
    Loop.Exits call.greedyStep s.progress out
  complete : call.Running s' → s'.history = s.history ++ tokens
  partly : ∃ emitted, emitted <+: tokens ∧ s'.history = s.history ++ emitted ∧
    (tokens ≠ [] → emitted ≠ [])
  cur : s.history.getLast? = some s.cur → s'.history.getLast? = some s'.cur

/-- Emitting a chain of greedy tokens is sequential greedy decoding. -/
theorem emit_chain {h acc tokens : List TokenId} {s : LoopState K} (hrunning : call.Running s)
    (hhistory : s.history = h ++ acc)
    (hchain : GreedyChain (fun w => call.greedyNext (h ++ w)) acc tokens) :
    (∀ e s', call.emit tokens s = .inr (e, s') →
        Loop.Exits call.greedyStep s.progress (e, s'.progress)) ∧
      ∀ s', call.emit tokens s = .inl s' → Emitted call tokens s s' := by
  induction tokens generalizing acc s with
  | nil =>
      refine ⟨by simp [emit], ?_⟩
      rintro s' h
      obtain rfl : s = s' := by simpa [emit] using h
      exact ⟨⟨rfl, rfl, rfl, rfl, rfl, rfl, rfl, rfl⟩, fun _ h => h, by simp, ⟨[], by simp⟩, id⟩
  | cons t rest ih =>
      obtain ⟨ht, hrest⟩ := hchain
      have hgreedy : call.greedyStep s.progress = call.deliver t s.progress := by
        have hcond : s.progress.emitted < call.maxTokens ∧ s.progress.history.length < call.nCtx :=
          hrunning
        rw [greedyStep, if_pos hcond, ht]
        simp only [LoopState.progress, hhistory]
      have hpush : (push s t).history = s.history ++ [t] := rfl
      rcases emit_cons call t rest s with ⟨e, s', hemit, hdeliver⟩ | ⟨hdeliver, hemit⟩
      · rw [hemit]
        refine ⟨?_, by simp⟩
        rintro e' s'' h
        cases h
        exact .leave (hgreedy.trans hdeliver)
      · have hback : ∀ out, Loop.Exits call.greedyStep (push s t).progress out →
            Loop.Exits call.greedyStep s.progress out :=
          fun out hout => .next (hgreedy.trans hdeliver) hout
        rw [hemit]
        by_cases hgoOn : call.Running (push s t)
        · rw [if_pos hgoOn]
          obtain ⟨hleave, hstay⟩ := ih hgoOn (by rw [hpush, hhistory, List.append_assoc]) hrest
          refine ⟨fun e s' h => hback _ (hleave e s' h), fun s' h => ?_⟩
          obtain ⟨hsame, hreplay, hfull, ⟨emitted, hpre, hhist, -⟩, hcur⟩ := hstay s' h
          refine ⟨(sameButProgress_push s t).trans hsame,
            fun out hout => hback _ (hreplay out hout), ?_, ?_, ?_⟩
          · intro hrun
            rw [hfull hrun, hpush, List.append_assoc, List.singleton_append]
          · refine ⟨t :: emitted, List.cons_prefix_cons.mpr ⟨rfl, hpre⟩, ?_, by simp⟩
            rw [hhist, hpush, List.append_assoc, List.singleton_append]
          · exact fun _ => hcur (by simp [push])
        · rw [if_neg hgoOn]
          refine ⟨by simp, ?_⟩
          rintro s' h
          cases h
          refine ⟨sameButProgress_push s t, hback, fun hrun => absurd hrun hgoOn, ?_, ?_⟩
          · exact ⟨[t], List.cons_prefix_cons.mpr ⟨rfl, List.nil_prefix⟩, hpush, by simp⟩
          · exact fun _ => by simp [push]

/-! ## Drafts are greedy -/

/-- A sampler that decodes greedily and whose generator produces variates in `[0, 1)`. -/
structure GreedySampler (call : Call K) (sampler : Sampler K) : Prop where
  config : sampler.config = call.gen
  stream : ∀ i, 0 ≤ sampler.rng.stream i ∧ sampler.rng.stream i < 1

theorem greedySampler_new : GreedySampler call (Sampler.new call.lib call.gen) :=
  ⟨rfl, call.lib.mt19937_mem _⟩

omit [LinearOrder K] in
theorem OneHotDraft.snoc {n i m : ℕ} {tokens : List TokenId} {probs : List (List K)}
    (hdraft : OneHotDraft n tokens probs) (hin : i < n) (him : i < m) :
    OneHotDraft n (tokens ++ [(i : ℤ)]) (probs ++ [(oneHot m i : List K)]) :=
  List.rel_append hdraft (.cons ⟨i, m, hin, him, rfl, rfl⟩ .nil)

/-! ## The loop invariant -/

/-- What the draft sources have to satisfy: a draft model is there, does not fail and
proposes tokens of the target, looked-up proposals are tokens of the target whenever
the generated part of the history is. -/
structure SourcesInVocab (call : Call K) (prompt : List TokenId) : Prop where
  attached : call.modelMode = true → call.decoder.draft.isSome
  faultFree : call.modelMode = true → ∀ backend ∈ call.decoder.draft, ∀ i,
    backend.fails i = false
  model : call.modelMode = true → ∀ backend ∈ call.decoder.draft, ∀ kv recent,
    greedyToken call.gen (backend.logits kv) recent < call.decoder.target.vocabSize
  lookup : call.modelMode = false → ∀ generated,
    (∀ t ∈ generated, call.decoder.target.InVocab t) → ∀ n tokens,
      call.lookupDraft (prompt ++ generated) n = .ok tokens →
        ∀ t ∈ tokens, call.decoder.target.InVocab t

/-- The loop invariant: while the loop runs, the target sequence holds the history
without its newest token. -/
structure InSync (call : Call K) (prompt : List TokenId) (s : LoopState K) : Prop where
  generated : ∃ generated, s.history = prompt ++ generated ∧
    ∀ t ∈ generated, call.decoder.target.InVocab t
  cur : s.history.getLast? = some s.cur
  kv : call.Running s → s.targetKv ++ [s.cur] = s.history ∧ s.base = s.targetKv.length
  sampler : GreedySampler call s.sampler
  acceptRng : ∀ i, 0 ≤ s.acceptRng.stream i ∧ s.acceptRng.stream i < 1

/-- The iteration that starts in `s` does not truncate a structural proposal to a
negative length. -/
def DraftLengthOk (call : Call K) (s : LoopState K) : Prop :=
  call.Running s → call.modelMode = false → s.self.speculativeActive = true →
    s.lookupSkip = false → 0 ≤ call.nDraft s

/-- Falls with every iteration: room in the context, and whether a draft will be tried. -/
def remaining (call : Call K) (s : LoopState K) : ℕ :=
  2 * (call.nCtx - s.history.length) +
    if s.self.speculativeActive = true ∧ s.lookupSkip = false then 1 else 0

/-- What one iteration that goes on comes to. -/
structure Advanced (call : Call K) (prompt : List TokenId) (s s' : LoopState K) : Prop where
  sync : InSync call prompt s'
  replay : ∀ out, Loop.Exits call.greedyStep s'.progress out →
    Loop.Exits call.greedyStep s.progress out
  falls : call.remaining s' < call.remaining s

theorem greedyChain_inVocab {h acc tokens : List TokenId}
    (hchain : GreedyChain (fun w => call.greedyNext (h ++ w)) acc tokens) :
    ∀ t ∈ tokens, call.decoder.target.InVocab t := by
  induction tokens generalizing acc with
  | nil => simp
  | cons t rest ih =>
      obtain ⟨ht, hrest⟩ := hchain
      intro u hu
      rcases List.mem_cons.mp hu with rfl | hu
      · rw [ht]
        exact ⟨Int.natCast_nonneg _, Int.ofNat_lt.mpr (greedyNext_lt _ _)⟩
      · exact ih hrest u hu

/-- Emitting a chain of greedy tokens from a synchronised target sequence. -/
theorem emit_advances {prompt tokens : List TokenId} (before s : LoopState K)
    (hrunning : call.Running s) (hne : tokens ≠ [])
    (hchain : GreedyChain (fun w => call.greedyNext (s.history ++ w)) [] tokens)
    (hgenerated : ∃ generated, s.history = prompt ++ generated ∧
      ∀ t ∈ generated, call.decoder.target.InVocab t)
    (hcur : s.history.getLast? = some s.cur)
    (hkv : s.targetKv = s.history ++ tokens.dropLast ∧ s.base = s.targetKv.length)
    (hsampler : GreedySampler call s.sampler)
    (hrng : ∀ i, 0 ≤ s.acceptRng.stream i ∧ s.acceptRng.stream i < 1)
    (hbefore : before.progress = s.progress) :
    (∀ e s', call.emit tokens s = .inr (e, s') →
        Loop.Exits call.greedyStep before.progress (e, s'.progress)) ∧
      ∀ s', call.emit tokens s = .inl s' → ∀ self,
        Advanced call prompt before { s' with self } := by
  obtain ⟨hleave, hstay⟩ := emit_chain hrunning (List.append_nil _).symm hchain
  rw [hbefore]
  refine ⟨hleave, fun s' h self => ?_⟩
  obtain ⟨hsame, hreplay, hfull, ⟨emitted, hpre, hhist, hnonempty⟩, hcur'⟩ := hstay s' h
  obtain ⟨generated, hext, hvocab⟩ := hgenerated
  have hlast := hcur' hcur
  refine ⟨⟨⟨generated ++ emitted, by rw [hhist, hext, List.append_assoc], ?_⟩, hlast, ?_, ?_, ?_⟩,
    by rw [hbefore]; exact hreplay, ?_⟩
  · intro t ht
    rcases List.mem_append.mp ht with ht | ht
    · exact hvocab t ht
    · exact greedyChain_inVocab hchain t (hpre.subset ht)
  · intro hrun
    have hhistory := hfull hrun
    rw [hsame.targetKv, hsame.base]
    refine ⟨?_, hkv.2⟩
    rw [hhistory, List.getLast?_append_of_ne_nil _ hne, List.getLast?_eq_some_getLast hne,
      Option.some.injEq] at hlast
    rw [hkv.1, hhistory, ← hlast, List.append_assoc, List.dropLast_append_getLast]
  · rw [hsame.sampler]; exact hsampler
  · rw [hsame.acceptRng]; exact hrng
  · have hlonger : s.history.length < s'.history.length := by
      rw [hhist, List.length_append]
      have := List.length_pos_iff.mpr (hnonempty hne)
      omega
    have hbeforeHistory : before.history = s.history := congrArg Progress.history hbefore
    have hroom : s.history.length < call.nCtx := hrunning.2
    unfold remaining
    rw [hbeforeHistory]
    dsimp only
    split <;> split <;> omega

/-! ## Roll-backs -/

omit [Field K] [LinearOrder K] in
/-- Where the batch and the roll-back leave the target sequence: at the history and
all but the newest of the tokens about to be emitted. -/
theorem synced_eq {history tokens kept : List TokenId} {result : VerificationResult} {base : ℕ}
    (hne : tokens ≠ []) (hkept : kept <+: tokens) (haccepted : result.acceptedTokens = kept)
    (hnone : result.correctedToken = none ↔ kept = tokens) (hlength : history.length = base + 1) :
    (if result.correctedToken = none then history ++ tokens.dropLast
      else (history ++ tokens.dropLast).take (base + 1 + result.acceptedTokens.length)) =
        history ++ result.newTokens.dropLast ∧
      (if result.correctedToken = none then base + tokens.length
        else base + 1 + result.acceptedTokens.length) =
        (history ++ result.newTokens.dropLast).length := by
  have hpos := List.length_pos_iff.mpr hne
  cases hcorrected : result.correctedToken with
  | none =>
      have hall := hnone.mp hcorrected
      simp only [if_true, VerificationResult.newTokens, hcorrected, haccepted, hall,
        Option.toList_none, List.append_nil, List.length_append, List.length_dropLast, true_and]
      omega
  | some token =>
      have hproper : kept.length < tokens.length := by
        rcases hkept.length_le.lt_or_eq with hlt | heq
        · exact hlt
        · rw [hnone.mpr (hkept.eq_of_length heq)] at hcorrected
          cases hcorrected
      have hpre := prefix_dropLast hkept hproper
      simp only [reduceCtorEq, if_false, VerificationResult.newTokens, hcorrected, haccepted,
        Option.toList_some, List.dropLast_concat, ← hlength, List.length_append, and_true]
      rw [List.take_length_add_append, ← List.prefix_iff_eq_take.mp hpre]

end Call

end Reame.Speculative
