import Reame.Speculative.GreedyRefinement

/-!
# What one iteration does

The parts of an iteration of the decoder, at any temperature and with a draft model whose
calls may fail: what a rollout leaves behind, what a verification accepts, where the
synchronisation leaves the two sequences, and what is emitted.  Each part has one lemma that
says all it can do; the invariants of the loop are read off from these.
-/

namespace Reame.Core

variable {K : Type*} [Field K] [LinearOrder K]

/-! ## Draws stay in range -/

theorem drawLoop_lt {last i bound : ℕ} (r : K) (probs : List K) (hlast : last < bound)
    (hbound : i + probs.length ≤ bound) : drawLoop last i r probs < bound := by
  induction probs generalizing last i r with
  | nil => exact hlast
  | cons p rest ih =>
      rw [List.length_cons] at hbound
      rw [drawLoop]
      by_cases hzero : p ≤ 0
      · rw [if_pos hzero]
        exact ih r hlast (by omega)
      · rw [if_neg hzero]
        by_cases hused : r - p ≤ 0
        · rw [if_pos hused]
          omega
        · rw [if_neg hused]
          exact ih (r - p) (by omega) (by omega)

/-- A sampler that may have drawn more variates. -/
structure Sampler.Continues (before after : Sampler K) : Prop where
  config : after.config = before.config
  stream : after.rng.stream = before.rng.stream

omit [Field K] [LinearOrder K] in
theorem Sampler.Continues.trans {a b c : Sampler K} (hab : a.Continues b) (hbc : b.Continues c) :
    a.Continues c :=
  ⟨hbc.config.trans hab.config, hbc.stream.trans hab.stream⟩

theorem Sampler.draw_continues (sampler : Sampler K) (probs : List K) :
    sampler.Continues (sampler.draw probs).2 := by
  rw [Sampler.draw]
  split <;> exact ⟨rfl, rfl⟩

/-- A drawn token is an index into the distribution. -/
theorem Sampler.draw_spec {sampler sampler' : Sampler K} {probs : List K} {t : TokenId}
    (hdraw : sampler.draw probs = (.ok t, sampler')) : 0 ≤ t ∧ t < probs.length := by
  rw [Sampler.draw] at hdraw
  by_cases hempty : probs = []
  · rw [if_pos hempty] at hdraw
    cases hdraw
  · rw [if_neg hempty] at hdraw
    cases hdraw
    have hpos := List.length_pos_iff.mpr hempty
    have hlt := drawLoop_lt (sampler.rng.next).1 probs hpos (by omega : 0 + probs.length ≤ _)
    exact ⟨Int.natCast_nonneg _, Int.ofNat_lt.mpr hlt⟩

theorem Sampler.distribution_spec {lib : StdLib K} {sampler : Sampler K} {logits probs : List K}
    {recent : List TokenId} (hdist : sampler.distribution lib logits recent = .ok probs) :
    probs.length = logits.length ∧ probs ≠ [] := by
  rw [Sampler.distribution] at hdist
  by_cases hempty : logits = []
  · rw [if_pos hempty] at hdist
    cases hdist
  · rw [if_neg hempty] at hdist
    cases hdist
    have hlength := length_distributionOf lib sampler.config logits recent
    refine ⟨hlength, ?_⟩
    rw [← List.length_pos_iff, hlength]
    exact List.length_pos_iff.mpr hempty

/-- A sampled token is an index into the logits. -/
theorem Sampler.sample_spec {lib : StdLib K} {sampler sampler' : Sampler K} {logits : List K}
    {recent : List TokenId} {t : TokenId}
    (hsample : sampler.sample lib logits recent = (.ok t, sampler')) :
    0 ≤ t ∧ t < logits.length := by
  rw [Sampler.sample] at hsample
  cases hdist : sampler.distribution lib logits recent with
  | error fault =>
      rw [hdist] at hsample
      cases hsample
  | ok probs =>
      obtain ⟨hlength, hne⟩ := Sampler.distribution_spec hdist
      rw [hdist] at hsample
      dsimp only at hsample
      by_cases hgreedy : sampler.config.temperature ≤ 0
      · rw [if_pos hgreedy] at hsample
        cases hsample
        refine ⟨Int.natCast_nonneg _, ?_⟩
        rw [← hlength]
        exact Int.ofNat_lt.mpr (maxElement_lt hne)
      · rw [if_neg hgreedy] at hsample
        rw [← hlength]
        exact Sampler.draw_spec hsample

theorem Sampler.sample_continues (lib : StdLib K) (sampler : Sampler K) (logits : List K)
    (recent : List TokenId) : sampler.Continues (sampler.sample lib logits recent).2 := by
  rw [Sampler.sample]
  split
  · exact ⟨rfl, rfl⟩
  · split
    · exact ⟨rfl, rfl⟩
    · exact sampler.draw_continues _

end Reame.Core

namespace Reame.Speculative

open Reame.Core

variable {K : Type*} [Field K] [LinearOrder K]

/-! ## Verification -/

/-- A verification accepts a front of the draft, all of it when there is no correction. -/
def KeepsFront (tokens : List TokenId) (result : VerificationResult) : Prop :=
  ∃ kept, kept <+: tokens ∧ result.acceptedTokens = kept ∧
    (result.correctedToken = none ↔ kept = tokens)

omit [LinearOrder K] [Field K] in
theorem index_ok {values : List K} {t : TokenId} (hlow : 0 ≤ t) (hhigh : t < values.length) :
    ∃ value, index values t = .ok value := by
  have hlt : t.toNat < values.length := (Int.toNat_lt hlow).mpr hhigh
  refine ⟨values[t.toNat], ?_⟩
  rw [index, if_neg (not_lt.mpr hlow), List.getElem?_eq_getElem hlt]

omit [LinearOrder K] [Field K] in
theorem index_error {values : List K} {t : TokenId} {fault : Fault}
    (hindex : index values t = .error fault) : fault = .outOfBounds := by
  rw [index] at hindex
  split at hindex
  · cases hindex
    rfl
  · split at hindex
    · cases hindex
    · cases hindex
      rfl

theorem length_residualDistribution (p q : List K) :
    (residualDistribution p q).length = p.length := by
  rw [residualDistribution]
  split
  · rfl
  · rw [List.length_map, List.length_mapIdx]

/-- What the loop of `verify_batch` returns, if it returns. -/
theorem verifyLoop_spec {target : List TokenId → Except Fault (List K)} {tokens : List TokenId}
    {probs : List (List K)} {accepted : List TokenId} {rng rng' : Rng K}
    {result : VerificationResult}
    (hloop : verifyLoop target tokens probs accepted rng = (.ok result, rng')) :
    ∃ kept, kept <+: tokens ∧ result.acceptedTokens = accepted ++ kept ∧
      (result.correctedToken = none ↔ kept = tokens) ∧
      ∀ t ∈ result.correctedToken, ∃ p, target (accepted ++ kept) = .ok p ∧
        (p ≠ [] → 0 ≤ t ∧ t < p.length) := by
  induction tokens generalizing probs accepted rng with
  | nil =>
      rw [verifyLoop] at hloop
      cases hloop
      exact ⟨[], List.nil_prefix, by simp, by simp, by simp⟩
  | cons d tokens ih =>
      cases probs with
      | nil =>
          rw [verifyLoop] at hloop
          cases hloop
      | cons draftProbs probs =>
          rw [verifyLoop] at hloop
          cases htarget : target accepted with
          | error fault =>
              rw [htarget] at hloop
              cases hloop
          | ok targetProbs =>
              rw [htarget] at hloop
              dsimp only at hloop
              cases hp : index targetProbs d with
              | error fault =>
                  rw [hp] at hloop
                  cases hloop
              | ok p =>
                  cases hq : index draftProbs d with
                  | error fault =>
                      rw [hp, hq] at hloop
                      cases hloop
                  | ok q =>
                      rw [hp, hq] at hloop
                      dsimp only at hloop
                      by_cases haccept : acceptToken p q rng.next.1 = true
                      · rw [if_pos haccept] at hloop
                        obtain ⟨kept, hkept, haccepted, hnone, hcorrected⟩ := ih hloop
                        refine ⟨d :: kept, List.cons_prefix_cons.mpr ⟨rfl, hkept⟩, ?_, ?_, ?_⟩
                        · rw [haccepted, List.append_assoc, List.singleton_append]
                        · rw [hnone, List.cons.injEq]
                          simp
                        · rw [List.append_assoc, List.singleton_append] at hcorrected
                          exact hcorrected
                      · rw [if_neg haccept] at hloop
                        cases hloop
                        refine ⟨[], List.nil_prefix, by simp, by simp, ?_⟩
                        intro t ht
                        obtain rfl := Option.mem_some_iff.mp ht
                        refine ⟨targetProbs, by rw [List.append_nil, htarget], fun hne => ?_⟩
                        have hpos : 0 < (residualDistribution targetProbs draftProbs).length := by
                          rw [length_residualDistribution]
                          exact List.length_pos_iff.mpr hne
                        have hlt := drawLoop_lt rng.next.2.next.1
                          (residualDistribution targetProbs draftProbs) hpos
                          (by omega : 0 + _ ≤ _)
                        rw [length_residualDistribution] at hlt
                        exact ⟨Int.natCast_nonneg _, Int.ofNat_lt.mpr hlt⟩

/-- The loop of `verify_batch` draws from one generator. -/
theorem verifyLoop_stream (target : List TokenId → Except Fault (List K)) (tokens : List TokenId)
    (probs : List (List K)) (accepted : List TokenId) (rng : Rng K) :
    (verifyLoop target tokens probs accepted rng).2.stream = rng.stream := by
  induction tokens generalizing probs accepted rng with
  | nil => rfl
  | cons d tokens ih =>
      cases probs with
      | nil => rfl
      | cons draftProbs probs =>
          rw [verifyLoop]
          split
          · rfl
          · split
            · dsimp only
              split
              · exact ih _ _ _
              · rfl
            · rfl
            · rfl

/-- The loop of `verify_batch` returns when every token it looks up is an index into both
distributions. -/
theorem verifyLoop_ok {n : ℕ} {target : List TokenId → Except Fault (List K)}
    {tokens : List TokenId} {probs : List (List K)} {accepted : List TokenId}
    (htarget : ∀ w, w <+: accepted ++ tokens → w.length < (accepted ++ tokens).length →
      ∃ p, target w = .ok p ∧ p.length = n)
    (hdraft : List.Forall₂ (fun (t : TokenId) (q : List K) =>
      0 ≤ t ∧ t < n ∧ t < q.length) tokens probs) (rng : Rng K) :
    ∃ result rng', verifyLoop target tokens probs accepted rng = (.ok result, rng') := by
  induction hdraft generalizing accepted rng with
  | nil => exact ⟨_, _, rfl⟩
  | @cons d draftProbs tokens probs hhead _ ih =>
      obtain ⟨targetProbs, hhere, hlength⟩ := htarget accepted (List.prefix_append _ _) (by simp)
      obtain ⟨p, hp⟩ := index_ok hhead.1 (by rw [hlength]; exact hhead.2.1 : d < targetProbs.length)
      obtain ⟨q, hq⟩ := index_ok hhead.1 hhead.2.2
      rw [verifyLoop, hhere]
      dsimp only
      rw [hp, hq]
      dsimp only
      by_cases haccept : acceptToken p q rng.next.1 = true
      · rw [if_pos haccept]
        refine ih ?_ _
        rw [List.append_assoc, List.singleton_append]
        exact htarget
      · rw [if_neg haccept]
        exact ⟨_, _, rfl⟩

/-- With a target distribution for every proper front of the draft, a lookup is all that can
fail. -/
theorem verifyLoop_error {target : List TokenId → Except Fault (List K)} {tokens : List TokenId}
    {probs : List (List K)} {accepted : List TokenId} {rng rng' : Rng K} {fault : Fault}
    (htarget : ∀ w, w <+: accepted ++ tokens → w.length < (accepted ++ tokens).length →
      ∃ p, target w = .ok p)
    (hloop : verifyLoop target tokens probs accepted rng = (.error fault, rng')) :
    fault = .outOfBounds := by
  induction tokens generalizing probs accepted rng with
  | nil => cases hloop
  | cons d tokens ih =>
      cases probs with
      | nil =>
          cases hloop
          rfl
      | cons draftProbs probs =>
          obtain ⟨targetProbs, hhere⟩ := htarget accepted (List.prefix_append _ _) (by simp)
          rw [verifyLoop, hhere] at hloop
          dsimp only at hloop
          cases hp : index targetProbs d with
          | error fault' =>
              rw [hp] at hloop
              cases hloop
              exact index_error hp
          | ok p =>
              cases hq : index draftProbs d with
              | error fault' =>
                  rw [hp, hq] at hloop
                  cases hloop
                  exact index_error hq
              | ok q =>
                  rw [hp, hq] at hloop
                  dsimp only at hloop
                  by_cases haccept : acceptToken p q rng.next.1 = true
                  · rw [if_pos haccept] at hloop
                    refine ih ?_ hloop
                    rw [List.append_assoc, List.singleton_append]
                    exact htarget
                  · rw [if_neg haccept] at hloop
                    cases hloop

/-! ## Rollouts -/

/-- A proposal whose tokens are in a vocabulary of `n` and are indices into the distributions
they were drawn from. -/
def DraftInVocab (n : ℕ) (tokens : List TokenId) (probs : List (List K)) : Prop :=
  List.Forall₂ (fun (t : TokenId) (q : List K) => 0 ≤ t ∧ t < n ∧ t < q.length) tokens probs

omit [LinearOrder K] [Field K] in
theorem DraftInVocab.mem {n : ℕ} {tokens : List TokenId} {probs : List (List K)}
    (hdraft : DraftInVocab n tokens probs) : ∀ t ∈ tokens, 0 ≤ t ∧ t < n := by
  induction hdraft with
  | nil => simp
  | cons hhead _ ih =>
      intro t ht
      rcases List.mem_cons.mp ht with rfl | ht
      · exact ⟨hhead.1, hhead.2.1⟩
      · exact ih t ht

omit [LinearOrder K] [Field K] in
theorem DraftInVocab.mono {n m : ℕ} {tokens : List TokenId} {probs : List (List K)}
    (hdraft : DraftInVocab n tokens probs) (hle : n ≤ m) : DraftInVocab m tokens probs :=
  List.Forall₂.imp (fun _ _ h => ⟨h.1, lt_of_lt_of_le h.2.1 (Int.ofNat_le.mpr hle), h.2.2⟩) hdraft

omit [LinearOrder K] [Field K] in
theorem FaultyBackend.decodeAppend_spec (backend : FaultyBackend K) (draft : DraftState)
    (tokens : List TokenId) :
    (∃ fault after, backend.decodeAppend draft tokens = (.error fault, after)) ∨
      backend.decodeAppend draft tokens =
        (.ok (backend.logits (draft.kv ++ tokens)), ⟨draft.kv ++ tokens, draft.calls + 1⟩) := by
  rw [FaultyBackend.decodeAppend, FaultyBackend.call]
  by_cases hfails : backend.fails draft.calls = true
  · rw [if_pos hfails]
    exact Or.inl ⟨_, _, rfl⟩
  · rw [if_neg hfails]
    exact Or.inr rfl

/-- What a rollout that succeeds leaves behind: the proposed tokens, and the draft sequence
extended by the fed token and all proposed ones but the last. -/
structure RolledOut (backend : FaultyBackend K) (n : ℕ) (cur : TokenId) (before after : DraftState)
    (drafted : List TokenId) (probs : List (List K)) : Prop where
  length_le : drafted.length ≤ n
  inVocab : DraftInVocab backend.vocabSize drafted probs
  kv : after.kv = before.kv ++ (cur :: drafted).dropLast
  calls : after.calls = before.calls + drafted.length

theorem rolloutLoop_spec (lib : StdLib K) (backend : FaultyBackend K) (n : ℕ) (cur : TokenId)
    (history : List TokenId) (sampler : Sampler K) (draft : DraftState) (result : DraftResult K) :
    let rollout := rolloutLoop lib backend n cur history sampler draft result
    sampler.Continues rollout.sampler ∧
      ∀ proposed, rollout.result = .ok proposed →
        ∃ drafted probs, proposed.tokens = result.tokens ++ drafted ∧
          proposed.probs = result.probs ++ probs ∧
          RolledOut backend n cur draft rollout.draft drafted probs := by
  induction n generalizing cur history sampler draft result with
  | zero =>
      refine ⟨⟨rfl, rfl⟩, ?_⟩
      rintro proposed ⟨⟩
      exact ⟨[], [], by simp, by simp, le_rfl, .nil, by simp [rolloutLoop], rfl⟩
  | succ n ih =>
      dsimp only
      rcases backend.decodeAppend_spec draft [cur] with ⟨fault, after, hcall⟩ | hcall
      · rw [rolloutLoop, hcall]
        exact ⟨⟨rfl, rfl⟩, by rintro proposed ⟨⟩⟩
      · rw [rolloutLoop, hcall]
        dsimp only
        cases hdist : sampler.distribution lib (backend.logits (draft.kv ++ [cur])) history with
        | error fault => exact ⟨⟨rfl, rfl⟩, by rintro proposed ⟨⟩⟩
        | ok probs =>
            dsimp only
            cases hdraw : sampler.draw probs with
            | mk drawn sampler' =>
                have hcontinues := sampler.draw_continues probs
                rw [hdraw] at hcontinues
                cases drawn with
                | error fault => exact ⟨hcontinues, by rintro proposed ⟨⟩⟩
                | ok next =>
                    dsimp only
                    obtain ⟨hlength, -⟩ := Sampler.distribution_spec hdist
                    obtain ⟨hlow, hhigh⟩ := Sampler.draw_spec hdraw
                    have hvocab : next < backend.vocabSize := by
                      rw [hlength, backend.length_logits] at hhigh
                      exact hhigh
                    by_cases heos : next = backend.eosToken
                    · rw [if_pos heos]
                      refine ⟨hcontinues, ?_⟩
                      rintro proposed ⟨⟩
                      exact ⟨[next], [probs], rfl, rfl, by simp,
                        .cons ⟨hlow, hvocab, hhigh⟩ .nil, rfl, rfl⟩
                    · rw [if_neg heos]
                      obtain ⟨hcontinues', hok⟩ := ih next (history ++ [next]) sampler'
                        ⟨draft.kv ++ [cur], draft.calls + 1⟩
                        ⟨result.tokens ++ [next], result.probs ++ [probs]⟩
                      refine ⟨hcontinues.trans hcontinues', fun proposed hproposed => ?_⟩
                      obtain ⟨drafted, rest, htokens, hprobs, hle, hrest, hkv, hcalls⟩ :=
                        hok proposed hproposed
                      refine ⟨next :: drafted, probs :: rest, ?_, ?_, Nat.succ_le_succ hle,
                        .cons ⟨hlow, hvocab, hhigh⟩ hrest, ?_, ?_⟩
                      · rw [htokens, List.append_assoc, List.singleton_append]
                      · rw [hprobs, List.append_assoc, List.singleton_append]
                      · rw [hkv, List.append_assoc]
                        rfl
                      · rw [hcalls, List.length_cons]
                        dsimp only
                        omega

omit [Field K] [LinearOrder K] in
theorem SameButProgress.refl (s : LoopState K) : SameButProgress s s :=
  ⟨rfl, rfl, rfl, rfl, rfl, rfl, rfl, rfl⟩

namespace Call

variable {call : Call K}

/-! ## Emission -/

/-- The callback's answer, an end-of-generation token, or the caller's own exception. -/
def OwnExit (e : Exit) : Prop := e = .returned ∨ e = .threw .callback

/-- What emitting some tokens comes to, when the loop goes on. -/
structure EmittedOn (call : Call K) (tokens : List TokenId) (s s' : LoopState K) : Prop where
  same : SameButProgress s s'
  complete : call.Running s' → s'.history = s.history ++ tokens
  partly : ∃ emitted, emitted <+: tokens ∧ s'.history = s.history ++ emitted ∧
    (tokens ≠ [] → emitted ≠ [])
  cur : s.history.getLast? = some s.cur → s'.history.getLast? = some s'.cur

variable (call) in
/-- Emitting leaves with the caller's answer or an end-of-generation token, or goes on with
more tokens in the history. -/
theorem emit_spec (tokens : List TokenId) (s : LoopState K) :
    (∀ e s', call.emit tokens s = .inr (e, s') → OwnExit e ∧ SameButProgress s s' ∧
        ∃ emitted, emitted <+: tokens ∧ s'.history = s.history ++ emitted) ∧
      ∀ s', call.emit tokens s = .inl s' → EmittedOn call tokens s s' := by
  induction tokens generalizing s with
  | nil =>
      refine ⟨by simp [emit], ?_⟩
      rintro s' hemit
      obtain rfl : s = s' := by simpa [emit] using hemit
      exact ⟨.refl s, by simp, ⟨[], by simp⟩, id⟩
  | cons t rest ih =>
      have hpush : (push s t).history = s.history ++ [t] := rfl
      rw [emit]
      by_cases heog : call.decoder.target.isEog t = true
      · rw [if_pos heog]
        refine ⟨?_, by rintro s' ⟨⟩⟩
        rintro e s' ⟨⟩
        exact ⟨.inl rfl, .refl s, [], List.nil_prefix, (List.append_nil _).symm⟩
      · rw [if_neg heog]
        cases hcallback : call.callback (s.delivered ++ [t]) with
        | throws =>
            refine ⟨?_, by rintro s' ⟨⟩⟩
            rintro e s' ⟨⟩
            exact ⟨.inr rfl, ⟨rfl, rfl, rfl, rfl, rfl, rfl, rfl, rfl⟩, [], List.nil_prefix,
              (List.append_nil _).symm⟩
        | stop =>
            refine ⟨?_, by rintro s' ⟨⟩⟩
            rintro e s' ⟨⟩
            exact ⟨.inl rfl, ⟨rfl, rfl, rfl, rfl, rfl, rfl, rfl, rfl⟩, [], List.nil_prefix,
              (List.append_nil _).symm⟩
        | keepGoing =>
            dsimp only
            by_cases hfull : call.maxTokens ≤ (push s t).emitted ∨
                call.nCtx ≤ (push s t).history.length
            · rw [if_pos hfull]
              refine ⟨by rintro e s' ⟨⟩, ?_⟩
              rintro s' ⟨⟩
              refine ⟨sameButProgress_push s t, fun hrunning => ?_, ⟨[t], ?_⟩, fun _ => by simp [push]⟩
              · rw [Running] at hrunning
                omega
              · exact ⟨List.cons_prefix_cons.mpr ⟨rfl, List.nil_prefix⟩, hpush, by simp⟩
            · rw [if_neg hfull]
              obtain ⟨hleave, hstay⟩ := ih (push s t)
              refine ⟨fun e s' hemit => ?_, fun s' hemit => ?_⟩
              · obtain ⟨hown, hsame, emitted, hpre, hhistory⟩ := hleave e s' hemit
                refine ⟨hown, (sameButProgress_push s t).trans hsame, t :: emitted,
                  List.cons_prefix_cons.mpr ⟨rfl, hpre⟩, ?_⟩
                rw [hhistory, hpush, List.append_assoc, List.singleton_append]
              · obtain ⟨hsame, hall, ⟨emitted, hpre, hhistory, -⟩, hcur⟩ := hstay s' hemit
                refine ⟨(sameButProgress_push s t).trans hsame, fun hrunning => ?_,
                  ⟨t :: emitted, List.cons_prefix_cons.mpr ⟨rfl, hpre⟩, ?_, by simp⟩,
                  fun _ => hcur (by simp [push])⟩
                · rw [hall hrunning, hpush, List.append_assoc, List.singleton_append]
                · rw [hhistory, hpush, List.append_assoc, List.singleton_append]

/-! ## Drafting -/

/-- What an iteration does not touch before it verifies. -/
structure Untouched (s s' : LoopState K) : Prop where
  history : s'.history = s.history
  cur : s'.cur = s.cur
  base : s'.base = s.base
  emitted : s'.emitted = s.emitted
  targetKv : s'.targetKv = s.targetKv
  acceptRng : s'.acceptRng = s.acceptRng
  delivered : s'.delivered = s.delivered
  sampler : s.sampler.Continues s'.sampler
  draftLength : s'.self.currentDraftTokens = s.self.currentDraftTokens

omit [Field K] [LinearOrder K] in
theorem Untouched.refl (s : LoopState K) : Untouched s s :=
  ⟨rfl, rfl, rfl, rfl, rfl, rfl, rfl, ⟨rfl, rfl⟩, rfl⟩

omit [Field K] [LinearOrder K] in
theorem Untouched.trans {a b c : LoopState K} (hab : Untouched a b) (hbc : Untouched b c) :
    Untouched a c :=
  ⟨hbc.history.trans hab.history, hbc.cur.trans hab.cur, hbc.base.trans hab.base,
    hbc.emitted.trans hab.emitted, hbc.targetKv.trans hab.targetKv,
    hbc.acceptRng.trans hab.acceptRng, hbc.delivered.trans hab.delivered,
    hab.sampler.trans hbc.sampler, hbc.draftLength.trans hab.draftLength⟩

theorem Untouched.running {s s' : LoopState K} (hsame : Untouched s s') :
    call.Running s' ↔ call.Running s := by
  rw [Running, Running, hsame.history, hsame.emitted]

variable (call) in
theorem vocabGuard_untouched (s : LoopState K) :
    Untouched s (call.vocabGuard s) ∧ (call.vocabGuard s).draftState = s.draftState ∧
      (call.vocabGuard s).lookupSkip = s.lookupSkip ∧
      ((call.vocabGuard s).self.speculativeActive = true →
        call.vocabGuard s = s ∧ (call.modelMode = true → s.cur < call.draftVocab)) := by
  rw [vocabGuard]
  by_cases hguard : s.self.speculativeActive = true ∧ call.modelMode = true ∧
      (call.draftVocab : ℤ) ≤ s.cur
  · rw [if_pos hguard]
    exact ⟨⟨rfl, rfl, rfl, rfl, rfl, rfl, rfl, ⟨rfl, rfl⟩, rfl⟩, rfl, rfl, by simp⟩
  · rw [if_neg hguard]
    refine ⟨.refl s, rfl, rfl, fun hactive => ⟨rfl, fun hmode => ?_⟩⟩
    exact lt_of_not_ge fun hle => hguard ⟨hactive, hmode, hle⟩

/-- How many tokens the draft model is asked for. -/
def rolloutLength (call : Call K) (s : LoopState K) : ℕ :=
  (if 0 < call.nDraft s then call.nDraft s else call.decoder.config.draftTokens).toNat

/-- The draft an iteration goes on to verify, and the state it has then. -/
inductive Drafts (call : Call K) (s : LoopState K) (draft : DraftResult K) : LoopState K → Prop
  | model {backend : FaultyBackend K} {sampler : Sampler K} {draftState : DraftState}
      (hmode : call.modelMode = true) (hbackend : call.decoder.draft = some backend)
      (hcontinues : s.sampler.Continues sampler)
      (hrolled : RolledOut backend (call.rolloutLength s) s.cur s.draftState draftState
        draft.tokens draft.probs) :
      Drafts call s draft { s with sampler, draftState }
  | lookup (hmode : call.modelMode = false)
      (htokens : call.lookupDraft s.history (call.nDraft s) = .ok draft.tokens)
      (hvocab : DraftInVocab call.decoder.target.vocabSize draft.tokens draft.probs) :
      Drafts call s draft s

omit [LinearOrder K] in
theorem oneHotProbs_spec {n : ℕ} {tokens : List TokenId} {probs : List (List K)}
    (hprobs : oneHotProbs n tokens = .ok probs) : DraftInVocab n tokens probs := by
  induction tokens generalizing probs with
  | nil =>
      cases hprobs
      exact .nil
  | cons t rest ih =>
      rw [oneHotProbs, List.mapM_cons] at hprobs
      by_cases hvocab : 0 ≤ t ∧ t < (n : ℤ)
      · rw [if_pos hvocab] at hprobs
        cases hrest : oneHotProbs (K := K) n rest with
        | error fault =>
            rw [oneHotProbs] at hrest
            rw [hrest] at hprobs
            cases hprobs
        | ok others =>
            have hothers := ih hrest
            rw [oneHotProbs] at hrest
            rw [hrest] at hprobs
            cases hprobs
            exact .cons ⟨hvocab.1, hvocab.2, by rw [length_oneHot]; exact hvocab.2⟩ hothers
      · rw [if_neg hvocab] at hprobs
        cases hprobs

/-- As long as it speculates with a draft model, the decoder has one. -/
def Attached (call : Call K) (s : LoopState K) : Prop :=
  call.modelMode = true → s.self.speculativeActive = true → call.decoder.draft.isSome

/-- The drafting part of an iteration gives up, proposes, or, when looking up, throws. -/
theorem draftPhase_spec {s : LoopState K} (hattached : Attached call s)
    (hactive : s.self.speculativeActive = true) :
    (∃ s', call.draftPhase s = .retry s' ∧ Untouched s s' ∧
        (call.modelMode = true → s'.self.speculativeActive = false) ∧
        (call.modelMode = false → s' = { s with lookupSkip := true })) ∨
      (∃ draft s', call.draftPhase s = .proposed draft s' ∧ draft.tokens ≠ [] ∧
        Drafts call s draft s') ∨
      ∃ fault, call.draftPhase s = .threw fault s ∧ call.modelMode = false ∧
        (call.lookupDraft s.history (call.nDraft s) = .error fault ∨
          ∃ tokens, call.lookupDraft s.history (call.nDraft s) = .ok tokens ∧
            oneHotProbs (K := K) call.decoder.target.vocabSize tokens = .error fault) := by
  rw [draftPhase]
  by_cases hmode : call.modelMode = true
  · obtain ⟨backend, hbackend⟩ := Option.isSome_iff_exists.mp (hattached hmode hactive)
    obtain ⟨hcontinues, hok⟩ := rolloutLoop_spec call.lib backend (call.rolloutLength s) s.cur
      s.history s.sampler s.draftState {}
    rw [if_pos hmode, modelDraftPhase, hbackend]
    simp only [generateDraft]
    rw [← rolloutLength]
    set rollout := rolloutLoop call.lib backend (call.rolloutLength s) s.cur s.history s.sampler
      s.draftState {}
    have huntouched : Untouched s (deactivate { s with
        sampler := rollout.sampler, draftState := rollout.draft }) :=
      ⟨rfl, rfl, rfl, rfl, rfl, rfl, rfl, hcontinues, rfl⟩
    cases hresult : rollout.result with
    | error fault =>
        exact .inl ⟨_, rfl, huntouched, fun _ => rfl, fun hlookup => by simp [hlookup] at hmode⟩
    | ok draft =>
        dsimp only
        by_cases hempty : draft.tokens = []
        · rw [if_pos hempty]
          exact .inl ⟨_, rfl, huntouched, fun _ => rfl, fun hlookup => by simp [hlookup] at hmode⟩
        · obtain ⟨drafted, probs, htokens, hprobs, hrolled⟩ := hok draft hresult
          rw [List.nil_append] at htokens hprobs
          rw [← htokens, ← hprobs] at hrolled
          rw [if_neg hempty]
          exact .inr (.inl ⟨_, _, rfl, hempty, .model hmode hbackend hcontinues hrolled⟩)
  · rw [Bool.not_eq_true] at hmode
    rw [hmode]
    simp only [Bool.false_eq_true, if_false, lookupDraftPhase]
    cases hlookup : call.lookupDraft s.history (call.nDraft s) with
    | error fault => exact .inr (.inr ⟨fault, rfl, trivial, .inl rfl⟩)
    | ok tokens =>
        dsimp only
        cases hprobs : oneHotProbs (K := K) call.decoder.target.vocabSize tokens with
        | error fault => exact .inr (.inr ⟨fault, rfl, trivial, .inr ⟨tokens, rfl, hprobs⟩⟩)
        | ok probs =>
            dsimp only
            by_cases hempty : tokens = []
            · rw [if_pos hempty]
              exact .inl ⟨_, rfl, ⟨rfl, rfl, rfl, rfl, rfl, rfl, rfl, ⟨rfl, rfl⟩, rfl⟩, by simp,
                fun _ => rfl⟩
            · rw [if_neg hempty]
              exact .inr (.inl ⟨_, _, rfl, hempty, .lookup hmode hlookup (oneHotProbs_spec hprobs)⟩)

theorem draftPhase_proposed {s drafted : LoopState K} {draft : DraftResult K}
    (hattached : Attached call s) (hactive : s.self.speculativeActive = true)
    (hphase : call.draftPhase s = .proposed draft drafted) :
    draft.tokens ≠ [] ∧ Drafts call s draft drafted := by
  rcases draftPhase_spec hattached hactive with
    ⟨_, hretry, -⟩ | ⟨_, _, hproposed, hne, hdrafts⟩ | ⟨_, hthrew, -⟩
  · rw [hphase] at hretry
    cases hretry
  · rw [hphase] at hproposed
    cases hproposed
    exact ⟨hne, hdrafts⟩
  · rw [hphase] at hthrew
    cases hthrew

theorem draftPhase_threw {s s' : LoopState K} {fault : Fault} (hattached : Attached call s)
    (hactive : s.self.speculativeActive = true) (hphase : call.draftPhase s = .threw fault s') :
    call.modelMode = false ∧
      (call.lookupDraft s.history (call.nDraft s) = .error fault ∨
        ∃ tokens, call.lookupDraft s.history (call.nDraft s) = .ok tokens ∧
          oneHotProbs (K := K) call.decoder.target.vocabSize tokens = .error fault) := by
  rcases draftPhase_spec hattached hactive with
    ⟨_, hretry, -⟩ | ⟨_, _, hproposed, -⟩ | ⟨fault', hthrew, hmode, hfault⟩
  · rw [hphase] at hretry
    cases hretry
  · rw [hphase] at hproposed
    cases hproposed
  · rw [hphase] at hthrew
    cases hthrew
    exact ⟨hmode, hfault⟩

/-- With a draft model, drafting leaves the draft sequence as the rollout does. -/
theorem draftPhase_draftState {s : LoopState K} {backend : FaultyBackend K}
    (hmode : call.modelMode = true) (hbackend : call.decoder.draft = some backend) :
    let rollout := rolloutLoop call.lib backend (call.rolloutLength s) s.cur s.history s.sampler
      s.draftState {}
    (∀ s', call.draftPhase s = .retry s' → s'.draftState = rollout.draft) ∧
      ∀ draft s', call.draftPhase s = .proposed draft s' → s'.draftState = rollout.draft := by
  rw [draftPhase, if_pos hmode, modelDraftPhase, hbackend]
  simp only [generateDraft]
  rw [← rolloutLength]
  split
  · exact ⟨by rintro s' ⟨⟩; rfl, by rintro draft s' ⟨⟩⟩
  · split
    · exact ⟨by rintro s' ⟨⟩; rfl, by rintro draft s' ⟨⟩⟩
    · exact ⟨by rintro s' ⟨⟩, by rintro draft s' ⟨⟩; rfl⟩

/-! ## Verification and plain decoding -/

/-- While the loop runs, the target sequence holds the history without its newest token. -/
structure TargetInSync (call : Call K) (s : LoopState K) : Prop where
  cur : s.history.getLast? = some s.cur
  kv : call.Running s → s.targetKv ++ [s.cur] = s.history ∧ s.base = s.targetKv.length

theorem TargetInSync.length_history {s : LoopState K} (hsync : TargetInSync call s)
    (hrunning : call.Running s) : s.history.length = s.base + 1 := by
  obtain ⟨hkv, hbase⟩ := hsync.kv hrunning
  rw [← hkv, hbase, List.length_append, List.length_singleton]

/-- The draft sequence after a synchronisation that did not fail. -/
def rolledBack (call : Call K) (s : LoopState K) (result : VerificationResult) : DraftState :=
  match result.correctedToken, call.modelMode, call.decoder.draft with
  | some _, true, some _ =>
      ⟨s.draftState.kv.take (s.base + 1 + result.acceptedTokens.length), s.draftState.calls + 1⟩
  | _, _, _ => s.draftState

/-- The state in which the tokens of a verification are emitted. -/
structure Synced (call : Call K) (draft : DraftResult K) (s : LoopState K)
    (result : VerificationResult) (synced : LoopState K) : Prop where
  keeps : KeepsFront draft.tokens result
  corrected : ∀ t ∈ result.correctedToken, call.decoder.target.InVocab t
  targetKv : synced.targetKv = s.history ++ result.newTokens.dropLast
  base : synced.base = synced.targetKv.length
  draftState : synced.draftState = call.rolledBack s result
  history : synced.history = s.history
  cur : synced.cur = s.cur
  emitted : synced.emitted = s.emitted
  lookupSkip : synced.lookupSkip = s.lookupSkip
  delivered : synced.delivered = s.delivered
  sampler : synced.sampler = s.sampler
  stream : synced.acceptRng.stream = s.acceptRng.stream
  active : synced.self.speculativeActive = s.self.speculativeActive
  draftLength : synced.self.currentDraftTokens = s.self.currentDraftTokens

/-- The truncation of the draft sequence, were it the next call, would throw. -/
def RollbackFails (call : Call K) (s : LoopState K) : Prop :=
  call.modelMode = true ∧ ∃ backend, call.decoder.draft = some backend ∧
    backend.fails s.draftState.calls = true

/-- The end of an iteration that verified: emission and adaptation. -/
def emitVerified (call : Call K) (drafted : ℕ) (result : VerificationResult) (s : LoopState K) :
    LoopState K ⊕ (Exit × LoopState K) :=
  match call.emit result.newTokens s with
  | .inr out => .inr out
  | .inl s =>
      let adapted := adaptDraftLength call.decoder.config s.self result.acceptedTokens.length drafted
      .inl { s with self := maybeAutoDisable call.decoder.config adapted }

variable (call) in
theorem syncKv_spec (drafted : ℕ) (result : VerificationResult) (s : LoopState K) :
    (∃ draftState, call.syncKv drafted result s =
        (.error (.modelError "draft backend failure"), { s with
          targetKv := s.targetKv.take (s.base + 1 + result.acceptedTokens.length), draftState }) ∧
        result.correctedToken ≠ none ∧ call.RollbackFails s) ∨
      call.syncKv drafted result s = (.ok (), { s with
        base := if result.correctedToken = none then s.base + drafted
          else s.base + 1 + result.acceptedTokens.length
        draftState := call.rolledBack s result
        targetKv := if result.correctedToken = none then s.targetKv
          else s.targetKv.take (s.base + 1 + result.acceptedTokens.length) }) ∧
        (result.correctedToken ≠ none → ¬ call.RollbackFails s) := by
  rw [syncKv, rolledBack, RollbackFails]
  cases hcorrected : result.correctedToken with
  | none => exact .inr ⟨rfl, fun hnone => absurd rfl hnone⟩
  | some t =>
      cases hmode : call.modelMode with
      | false => exact .inr ⟨rfl, fun _ => by simp⟩
      | true =>
          cases hdraft : call.decoder.draft with
          | none => exact .inr ⟨rfl, fun _ => by simp⟩
          | some backend =>
              simp only [FaultyBackend.truncateTo, FaultyBackend.call]
              by_cases hfails : backend.fails s.draftState.calls = true
              · rw [if_pos hfails]
                exact .inl ⟨_, rfl, by simp, trivial, backend, rfl, hfails⟩
              · rw [if_neg hfails]
                refine .inr ⟨rfl, ?_⟩
                rintro - ⟨-, backend', hbackend', hfails'⟩
                cases hbackend'
                exact hfails hfails'

/-- What `verify_batch` returns for a draft. -/
def verdict (call : Call K) (draft : DraftResult K) (s : LoopState K) :
    Except Fault VerificationResult :=
  (verifyBatch call.lib call.decoder.target s.targetKv s.cur draft s.sampler s.acceptRng
    s.history).1

/-- An iteration that a failure cut short has changed the sequences and the counters only. -/
structure CutShort (s s' : LoopState K) : Prop where
  history : s'.history = s.history
  active : s'.self.speculativeActive = s.self.speculativeActive
  draftLength : s'.self.currentDraftTokens = s.self.currentDraftTokens

/-- The ways the verification of a draft can go: a drafted token is out of range, the truncation
of the draft sequence fails, or the new tokens are emitted from a synchronised state. -/
inductive Verified (call : Call K) (draft : DraftResult K) (s : LoopState K) :
    LoopState K ⊕ (Exit × LoopState K) → Prop
  | outOfRange {s' : LoopState K} (hverdict : call.verdict draft s = .error .outOfBounds)
      (hcut : CutShort s s') (htargetKv : s'.targetKv = s.targetKv ++ s.cur :: draft.tokens.dropLast)
      (hdraftState : s'.draftState = s.draftState)
      (hvocab : ¬ DraftInVocab call.decoder.target.vocabSize draft.tokens draft.probs) :
      Verified call draft s (.inr (.threw .outOfBounds, s'))
  | rollbackFailed {s' : LoopState K} {result : VerificationResult}
      (hverdict : call.verdict draft s = .ok result) (hcut : CutShort s s')
      (htargetKv : s'.targetKv = s.history ++ result.newTokens.dropLast)
      (hcorrected : result.correctedToken ≠ none) (hkeeps : KeepsFront draft.tokens result)
      (hfails : call.RollbackFails s) :
      Verified call draft s (.inr (.threw (.modelError "draft backend failure"), s'))
  | synced {result : VerificationResult} {synced : LoopState K}
      (hverdict : call.verdict draft s = .ok result) (hsynced : Synced call draft s result synced)
      (hrollback : result.correctedToken ≠ none → ¬ call.RollbackFails s) :
      Verified call draft s (call.emitVerified draft.tokens.length result synced)

theorem verifyPhase_verified {draft : DraftResult K} {s : LoopState K} (hsync : TargetInSync call s)
    (hrunning : call.Running s) (hne : draft.tokens ≠ []) :
    Verified call draft s (call.verifyPhase draft s) := by
  obtain ⟨hkv, hbase⟩ := hsync.kv hrunning
  -- At every proper front of the draft the batch has logits of the right length.
  have htarget : ∀ w, w <+: [] ++ draft.tokens → w.length < ([] ++ draft.tokens).length →
      ∃ p, batchTarget call.lib s.sampler
        (call.decoder.target.decodeBatch s.targetKv (s.cur :: draft.tokens.dropLast)).2 s.history w =
          .ok p ∧ p.length = call.decoder.target.vocabSize := by
    intro w hw hlt
    rw [List.nil_append] at hw hlt
    refine ⟨distributionOf call.lib s.sampler.config
      (call.decoder.target.logits (s.targetKv ++ s.cur :: w)) (s.history ++ w), ?_, ?_⟩
    · rw [batchTarget_eq call.lib _ _ hw hlt, Sampler.distribution,
        if_neg (call.decoder.target.logits_ne_nil _)]
    · rw [length_distributionOf, call.decoder.target.length_logits]
  cases hloop : verifyLoop (batchTarget call.lib s.sampler
      (call.decoder.target.decodeBatch s.targetKv (s.cur :: draft.tokens.dropLast)).2 s.history)
      draft.tokens draft.probs [] s.acceptRng with
  | mk verdict rng =>
      cases verdict with
      | error fault =>
          obtain rfl := verifyLoop_error
            (fun w hw hlt => (htarget w hw hlt).imp fun p hp => hp.1) hloop
          have hphase : call.verifyPhase draft s = .inr (.threw .outOfBounds, { s with
              targetKv := s.targetKv ++ s.cur :: draft.tokens.dropLast, acceptRng := rng }) := by
            simp only [verifyPhase, verifyBatch, if_neg hne, LlamaBackend.decodeBatch_kv, hloop]
          rw [hphase]
          refine .outOfRange ?_ ⟨rfl, rfl, rfl⟩ rfl rfl fun hvocab => ?_
          · simp only [verdict, verifyBatch, if_neg hne, hloop]
          · obtain ⟨result, rng', hok⟩ := verifyLoop_ok htarget hvocab s.acceptRng
            rw [hloop] at hok
            cases hok
      | ok result =>
          obtain ⟨kept, hkept, haccepted, hnone, hcorrected⟩ := verifyLoop_spec hloop
          rw [List.nil_append] at haccepted
          have hkeeps : KeepsFront draft.tokens result := ⟨kept, hkept, haccepted, hnone⟩
          have hvocab : ∀ t ∈ result.correctedToken, call.decoder.target.InVocab t := by
            intro t ht
            obtain ⟨p, hp, hrange⟩ := hcorrected t ht
            have hproper : kept.length < draft.tokens.length := by
              refine lt_of_le_of_ne hkept.length_le fun heq => ?_
              rw [hnone.mpr (hkept.eq_of_length heq)] at ht
              cases ht
            obtain ⟨p', hp', hlength⟩ := htarget kept (by simpa using hkept) (by simpa using hproper)
            rw [List.nil_append, hp', Except.ok.injEq] at hp
            subst hp
            have hpos := call.decoder.target.vocabSize_pos
            have hne' : p' ≠ [] := by
              rw [← List.length_pos_iff]
              omega
            obtain ⟨hlow, hhigh⟩ := hrange hne'
            exact ⟨hlow, by rw [← hlength]; exact hhigh⟩
          set verified := countVerified { s with
            targetKv := s.targetKv ++ s.cur :: draft.tokens.dropLast, acceptRng := rng }
            draft.tokens.length result
          have hfailed (fault : Fault) (s' : LoopState K)
              (hsync : call.syncKv draft.tokens.length result verified = (.error fault, s')) :
              call.verifyPhase draft s = .inr (.threw fault, s') := by
            simp only [verifyPhase, verifyBatch, if_neg hne, LlamaBackend.decodeBatch_kv, hloop]
            rw [hsync]
          have hdone (s' : LoopState K)
              (hsync : call.syncKv draft.tokens.length result verified = (.ok (), s')) :
              call.verifyPhase draft s = call.emitVerified draft.tokens.length result s' := by
            simp only [verifyPhase, verifyBatch, if_neg hne, LlamaBackend.decodeBatch_kv, hloop]
            rw [hsync]
            rfl
          have hverdict : call.verdict draft s = .ok result := by
            simp only [verdict, verifyBatch, if_neg hne, hloop]
          have hbatchKv : verified.targetKv = s.history ++ draft.tokens.dropLast := by
            rw [← hkv, List.append_assoc, List.singleton_append]
            rfl
          obtain ⟨hsyncedKv, hsyncedBase⟩ :=
            synced_eq hne hkept haccepted hnone (hsync.length_history hrunning)
          rcases syncKv_spec call draft.tokens.length result verified with
            ⟨draftState, hsynced, hsome, hfails⟩ | ⟨hsynced, hrollback⟩
          · rw [hfailed _ _ hsynced]
            refine .rollbackFailed hverdict ⟨rfl, rfl, rfl⟩ ?_ hsome hkeeps hfails
            rw [if_neg hsome, ← hbatchKv] at hsyncedKv
            exact hsyncedKv
          · rw [hdone _ hsynced]
            refine .synced hverdict ?_ hrollback
            have hstream : rng.stream = s.acceptRng.stream := by
              have hsame := verifyLoop_stream (batchTarget call.lib s.sampler
                (call.decoder.target.decodeBatch s.targetKv (s.cur :: draft.tokens.dropLast)).2
                s.history) draft.tokens draft.probs [] s.acceptRng
              rw [hloop] at hsame
              exact hsame
            refine ⟨hkeeps, hvocab, ?_, ?_, rfl, rfl, rfl, rfl, rfl, rfl, rfl, hstream, rfl, rfl⟩
            · rw [← hsyncedKv, ← hbatchKv]
              rfl
            · dsimp only
              rw [hbatchKv]
              rw [← hsyncedKv] at hsyncedBase
              exact hsyncedBase

variable (call) in
/-- A plain step samples a token of the vocabulary and emits it. -/
theorem plainStep_spec (s : LoopState K) :
    ∃ t sampler, s.sampler.sample call.lib
        (call.decoder.target.logits (s.targetKv ++ [s.cur])) s.history = (.ok t, sampler) ∧
      call.decoder.target.InVocab t ∧ s.sampler.Continues sampler ∧
      call.plainStep s = call.emit [t] { s with
        lookupSkip := false, targetKv := s.targetKv ++ [s.cur], base := s.base + 1, sampler } := by
  obtain ⟨t, sampler, hsample⟩ := sample_ok call.lib s.sampler
    (call.decoder.target.logits_ne_nil (s.targetKv ++ [s.cur])) s.history
  have hrange := Sampler.sample_spec hsample
  have hcontinues := s.sampler.sample_continues call.lib
    (call.decoder.target.logits (s.targetKv ++ [s.cur])) s.history
  rw [call.decoder.target.length_logits] at hrange
  rw [hsample] at hcontinues
  refine ⟨t, sampler, hsample, hrange, hcontinues, ?_⟩
  simp only [plainStep, LlamaBackend.decodeAppend, hsample]

/-! ## One iteration -/

/-- The iteration drafts: speculation is on, also after the vocabulary guard, and the last
lookup did not miss. -/
structure Drafting (call : Call K) (s : LoopState K) : Prop where
  guarded : call.vocabGuard s = s
  active : s.self.speculativeActive = true
  skip : s.lookupSkip = false
  cur : call.modelMode = true → s.cur < call.draftVocab

/-- The iteration is a plain one. -/
def Quiet (call : Call K) (s : LoopState K) : Prop :=
  ¬ ((call.vocabGuard s).self.speculativeActive = true ∧ ¬ (call.vocabGuard s).lookupSkip = true)

variable (call) in
theorem drafting_or_quiet (s : LoopState K) : Drafting call s ∨ Quiet call s := by
  by_cases hactive : (call.vocabGuard s).self.speculativeActive = true ∧
      ¬ (call.vocabGuard s).lookupSkip = true
  · obtain ⟨-, -, hskip, hguard⟩ := vocabGuard_untouched call s
    obtain ⟨heq, hcur⟩ := hguard hactive.1
    rw [heq, Bool.not_eq_true] at hactive
    exact .inl ⟨heq, hactive.1, hactive.2, hcur⟩
  · exact .inr hactive

/-- The ways an iteration can go. -/
inductive Iterates (call : Call K) (s : LoopState K) : LoopState K ⊕ (Exit × LoopState K) → Prop
  | ended (hstop : ¬ call.Running s) : Iterates call s (.inr (.returned, s))
  | gaveUp {s' : LoopState K} (hrunning : call.Running s) (hdrafting : Drafting call s)
      (hphase : call.draftPhase s = .retry s') (hsame : Untouched s s')
      (hmodel : call.modelMode = true → s'.self.speculativeActive = false)
      (hlookup : call.modelMode = false → s' = { s with lookupSkip := true }) :
      Iterates call s (.inl s')
  | lookupThrew {fault : Fault} (hrunning : call.Running s) (hdrafting : Drafting call s)
      (hphase : call.draftPhase s = .threw fault s) (hmode : call.modelMode = false)
      (hfault : call.lookupDraft s.history (call.nDraft s) = .error fault ∨
        ∃ tokens, call.lookupDraft s.history (call.nDraft s) = .ok tokens ∧
          oneHotProbs (K := K) call.decoder.target.vocabSize tokens = .error fault) :
      Iterates call s (.inr (.threw fault, s))
  | verified {draft : DraftResult K} {s' : LoopState K} (hrunning : call.Running s)
      (hdrafting : Drafting call s) (hphase : call.draftPhase s = .proposed draft s')
      (hne : draft.tokens ≠ []) (hdrafts : Drafts call s draft s') :
      Iterates call s (call.verifyPhase draft s')
  | plain {s' : LoopState K} {t : TokenId} {sampler : Sampler K} (hrunning : call.Running s)
      (hquiet : Quiet call s) (hsame : Untouched s s') (hdraft : s'.draftState = s.draftState)
      (hactive : s'.self.speculativeActive = true →
        s.self.speculativeActive = true ∧ s.lookupSkip = true)
      (hsample : s'.sampler.sample call.lib (call.decoder.target.logits (s.targetKv ++ [s.cur]))
        s.history = (.ok t, sampler))
      (hvocab : call.decoder.target.InVocab t) (hcontinues : s.sampler.Continues sampler) :
      Iterates call s (call.emit [t] { s' with
        lookupSkip := false, targetKv := s.targetKv ++ [s.cur], base := s.base + 1, sampler })

theorem step_iterates {s : LoopState K} (hattached : Attached call s) :
    Iterates call s (call.step s) := by
  rw [step]
  by_cases hrunning : call.Running s
  · rw [if_pos hrunning]
    dsimp only
    rcases drafting_or_quiet call s with hdrafting | hquiet
    · rw [hdrafting.guarded, if_pos ⟨hdrafting.active, by simp [hdrafting.skip]⟩]
      rcases draftPhase_spec hattached hdrafting.active with
        ⟨s', hphase, huntouched, hmodel, hlookup⟩ | ⟨draft, s', hphase, hne, hdrafts⟩ |
          ⟨fault, hphase, hmode, hfault⟩
      · rw [hphase]
        exact .gaveUp hrunning hdrafting hphase huntouched hmodel hlookup
      · rw [hphase]
        exact .verified hrunning hdrafting hphase hne hdrafts
      · rw [hphase]
        exact .lookupThrew hrunning hdrafting hphase hmode hfault
    · obtain ⟨hsame, hdraft, hskip, hguard⟩ := vocabGuard_untouched call s
      obtain ⟨t, sampler, hsample, hvocab, hcontinues, hplain⟩ :=
        plainStep_spec call (call.vocabGuard s)
      have hkv : (call.vocabGuard s).targetKv ++ [(call.vocabGuard s).cur] =
          s.targetKv ++ [s.cur] := by
        rw [hsame.targetKv, hsame.cur]
      rw [hkv, hsame.history] at hsample
      rw [hkv, hsame.base] at hplain
      rw [if_neg hquiet, hplain]
      refine .plain hrunning hquiet hsame hdraft (fun hon => ?_) hsample hvocab
        (hsame.sampler.trans hcontinues)
      rw [Quiet, hskip] at hquiet
      have hoff : s.lookupSkip = true := by
        by_contra hskip'
        exact hquiet ⟨hon, hskip'⟩
      rw [(hguard hon).1] at hon
      exact ⟨hon, hoff⟩
  · rw [if_neg hrunning]
    exact .ended hrunning

/-! ## The target stays in sync -/

theorem checkPrompt_ok_iff {prompt : List TokenId} :
    call.checkPrompt prompt = .ok () ↔ prompt ≠ [] ∧ prompt.length ≤ call.nCtx := by
  rw [checkPrompt]
  by_cases hne : prompt = []
  · simp [hne]
  · by_cases hlong : call.nCtx < prompt.length
    · simp [hne, hlong]
    · simp [hne, hlong, not_lt.mp hlong]

theorem initial_targetKv (self : DecoderState) (draftState : DraftState) (prompt : List TokenId) :
    (call.initial self draftState prompt).targetKv = prompt.take (prompt.length - 1) := by
  simp only [initial, LlamaBackend.decodeAppend, List.nil_append]
  by_cases hpos : 0 < prompt.length - 1
  · rw [if_pos hpos]
  · rw [if_neg hpos, Nat.eq_zero_of_not_pos hpos, List.take_zero]

/-- The loop is entered with the target in sync. -/
theorem initial_targetInSync {prompt : List TokenId} (hne : prompt ≠ []) (self : DecoderState)
    (draftState : DraftState) : TargetInSync call (call.initial self draftState prompt) := by
  have hlast : prompt.getLast? = some (prompt.getLastD 0) := by
    rw [List.getLastD_eq_getLast?, List.getLast?_eq_some_getLast hne, Option.getD_some]
  have hgetLast : prompt.getLast hne = prompt.getLastD 0 := by
    rw [List.getLast?_eq_some_getLast hne] at hlast
    exact Option.some.inj hlast
  refine ⟨hlast, fun _ => ?_⟩
  rw [initial_targetKv, ← List.dropLast_eq_take]
  refine ⟨?_, List.length_dropLast.symm⟩
  change prompt.dropLast ++ [prompt.getLastD 0] = prompt
  rw [← hgetLast]
  exact List.dropLast_append_getLast hne

theorem TargetInSync.of_untouched {s s' : LoopState K} (hsync : TargetInSync call s)
    (hsame : Untouched s s') : TargetInSync call s' := by
  refine ⟨by rw [hsame.history, hsame.cur]; exact hsync.cur, fun hrunning => ?_⟩
  rw [hsame.targetKv, hsame.cur, hsame.history, hsame.base]
  exact hsync.kv (hsame.running.mp hrunning)

/-- Emitting tokens that the target sequence already has, all but the newest. -/
theorem EmittedOn.inSync {tokens : List TokenId} {s s' : LoopState K}
    (hemitted : EmittedOn call tokens s s') (hne : tokens ≠ [])
    (hcur : s.history.getLast? = some s.cur) (hkv : s.targetKv = s.history ++ tokens.dropLast)
    (hbase : s.base = s.targetKv.length) : TargetInSync call s' := by
  have hlast := hemitted.cur hcur
  refine ⟨hlast, fun hrunning => ?_⟩
  have hhistory := hemitted.complete hrunning
  rw [hhistory, List.getLast?_append_of_ne_nil _ hne, List.getLast?_eq_some_getLast hne,
    Option.some.injEq] at hlast
  rw [hemitted.same.targetKv, hemitted.same.base]
  refine ⟨?_, hbase⟩
  rw [hkv, hhistory, ← hlast, List.append_assoc, List.dropLast_append_getLast]

omit [Field K] [LinearOrder K] in
/-- A verification brings at least one new token. -/
theorem newTokens_ne_nil {tokens : List TokenId} {result : VerificationResult}
    (hkeeps : KeepsFront tokens result) (hne : tokens ≠ []) : result.newTokens ≠ [] := by
  obtain ⟨kept, -, haccepted, hnone⟩ := hkeeps
  intro hnil
  obtain ⟨hkept, hcorrected⟩ := List.append_eq_nil_iff.mp hnil
  rw [haccepted] at hkept
  exact hne ((hnone.mp (Option.toList_eq_nil_iff.mp hcorrected)) ▸ hkept)

theorem Drafts.untouched {s s' : LoopState K} {draft : DraftResult K}
    (hdrafts : Drafts call s draft s') : Untouched s s' := by
  cases hdrafts with
  | model _ _ hcontinues _ => exact ⟨rfl, rfl, rfl, rfl, rfl, rfl, rfl, hcontinues, rfl⟩
  | lookup => exact .refl s

theorem Drafts.lookupSkip {s s' : LoopState K} {draft : DraftResult K}
    (hdrafts : Drafts call s draft s') : s'.lookupSkip = s.lookupSkip := by
  cases hdrafts <;> rfl

/-- A verification after which the loop goes on has emitted the new tokens. -/
theorem Verified.goesOn {draft : DraftResult K} {s s' : LoopState K}
    (hverified : Verified call draft s (.inl s')) :
    ∃ result synced after self, Synced call draft s result synced ∧
      EmittedOn call result.newTokens synced after ∧ s' = { after with self } := by
  generalize hout : (Sum.inl s' : LoopState K ⊕ (Exit × LoopState K)) = out at hverified
  cases hverified with
  | outOfRange => cases hout
  | rollbackFailed => cases hout
  | @synced result synced _ hsynced =>
      rw [emitVerified] at hout
      cases hemit : call.emit result.newTokens synced with
      | inr left =>
          rw [hemit] at hout
          cases hout
      | inl after =>
          rw [hemit] at hout
          cases hout
          exact ⟨result, synced, after, _, hsynced, (emit_spec call _ synced).2 after hemit, rfl⟩

/-- One iteration keeps the target sequence in sync. -/
theorem step_inSync {s s' : LoopState K} (hattached : Attached call s)
    (hsync : TargetInSync call s) (hstep : call.step s = .inl s') : TargetInSync call s' := by
  have hiterates := step_iterates hattached
  rw [hstep] at hiterates
  generalize hout : (Sum.inl s' : LoopState K ⊕ (Exit × LoopState K)) = out at hiterates
  cases hiterates with
  | ended => cases hout
  | lookupThrew => cases hout
  | gaveUp _ _ _ hsame =>
      cases hout
      exact hsync.of_untouched hsame
  | @verified draft drafted hrunning _ _ hne hdrafts =>
      have hsame := hdrafts.untouched
      have hdrafted := hsync.of_untouched hsame
      have hverified := verifyPhase_verified hdrafted (hsame.running.mpr hrunning) hne
      rw [← hout] at hverified
      obtain ⟨result, synced, after, self, hsynced, hemitted, rfl⟩ := hverified.goesOn
      have hafter := hemitted.inSync (newTokens_ne_nil hsynced.keeps hne)
        (by rw [hsynced.history, hsynced.cur]; exact hdrafted.cur)
        (by rw [hsynced.history]; exact hsynced.targetKv) hsynced.base
      exact ⟨hafter.cur, hafter.kv⟩
  | @plain same t sampler hrunning _ hsame =>
      obtain ⟨hkv, hbase⟩ := hsync.kv hrunning
      have hemitted := (emit_spec call [t] _).2 s' hout.symm
      refine hemitted.inSync (List.cons_ne_nil _ _) ?_ ?_ ?_
      · dsimp only
        rw [hsame.history, hsame.cur]
        exact hsync.cur
      · dsimp only
        rw [hkv, hsame.history, List.dropLast_singleton, List.append_nil]
      · dsimp only
        rw [hbase, List.length_append, List.length_singleton]

/-! ## The members of the decoder -/

/-- The state an iteration ends in. -/
def stateAfter : LoopState K ⊕ (Exit × LoopState K) → LoopState K
  | .inl s => s
  | .inr out => out.2

/-- Speculation is never switched back on, and the draft length changes through
`adapt_draft_length` only. -/
structure Adapts (call : Call K) (before after : DecoderState) : Prop where
  active : after.speculativeActive = true → before.speculativeActive = true
  draftLength : after.currentDraftTokens = before.currentDraftTokens ∨
    ∃ self accepted drafted, self.currentDraftTokens = before.currentDraftTokens ∧
      after.currentDraftTokens =
        (adaptDraftLength call.decoder.config self accepted drafted).currentDraftTokens

/-- Between bounds that can be raised by two the draft length stays. -/
theorem adaptDraftLength_mem {config : DecoderConfig K} {self : DecoderState} {low : ℤ}
    (hlow : 0 ≤ low) (hmin : low ≤ config.minDraftTokens ∧ config.minDraftTokens ≤ 2 ^ 31 - 3)
    (hmax : low ≤ config.maxDraftTokens ∧ config.maxDraftTokens ≤ 2 ^ 31 - 3)
    (hself : low ≤ self.currentDraftTokens ∧ self.currentDraftTokens ≤ 2 ^ 31 - 3)
    (accepted drafted : ℕ) :
    low ≤ (adaptDraftLength config self accepted drafted).currentDraftTokens ∧
      (adaptDraftLength config self accepted drafted).currentDraftTokens ≤ 2 ^ 31 - 3 := by
  have hlonger : toInt32 (self.currentDraftTokens + 2) = self.currentDraftTokens + 2 :=
    toInt32_of_mem (by omega) (by omega)
  have hshorter : toInt32 (self.currentDraftTokens - 2) = self.currentDraftTokens - 2 :=
    toInt32_of_mem (by omega) (by omega)
  unfold adaptDraftLength
  rw [hlonger, hshorter]
  dsimp only
  split
  · exact hself
  · split
    · dsimp only
      omega
    · split
      · dsimp only
        omega
      · exact hself

theorem adaptDraftLength_active (config : DecoderConfig K) (self : DecoderState)
    (accepted drafted : ℕ) :
    (adaptDraftLength config self accepted drafted).speculativeActive = self.speculativeActive := by
  rw [adaptDraftLength]
  split
  · rfl
  · dsimp only
    split
    · rfl
    · split <;> rfl

theorem maybeAutoDisable_spec (config : DecoderConfig K) (self : DecoderState) :
    ((maybeAutoDisable config self).speculativeActive = true → self.speculativeActive = true) ∧
      (maybeAutoDisable config self).currentDraftTokens = self.currentDraftTokens := by
  rw [maybeAutoDisable]
  split
  · exact ⟨by simp, rfl⟩
  · exact ⟨id, rfl⟩

variable (call) in
/-- Emission leaves the members alone, apart from a counter. -/
theorem stateAfter_emit (tokens : List TokenId) (s : LoopState K) :
    SameButProgress s (stateAfter (call.emit tokens s)) := by
  obtain ⟨hleave, hstay⟩ := emit_spec call tokens s
  cases hemit : call.emit tokens s with
  | inl s' => exact (hstay s' hemit).same
  | inr out => exact (hleave out.1 out.2 hemit).2.1

variable (call) in
/-- After a verification the sequences are those of the synchronised state. -/
theorem stateAfter_emitVerified (drafted : ℕ) (result : VerificationResult) (s : LoopState K) :
    (stateAfter (call.emitVerified drafted result s)).targetKv = s.targetKv ∧
      (stateAfter (call.emitVerified drafted result s)).draftState = s.draftState ∧
      (stateAfter (call.emitVerified drafted result s)).lookupSkip = s.lookupSkip ∧
      Adapts call s.self (stateAfter (call.emitVerified drafted result s)).self := by
  have hemitted := stateAfter_emit call result.newTokens s
  rw [emitVerified]
  cases hemit : call.emit result.newTokens s with
  | inr out =>
      rw [hemit] at hemitted
      exact ⟨hemitted.targetKv, hemitted.draftState, hemitted.lookupSkip,
        hemitted.active.symm.trans, .inl hemitted.draftLength⟩
  | inl s' =>
      rw [hemit] at hemitted
      refine ⟨hemitted.targetKv, hemitted.draftState, hemitted.lookupSkip, fun hactive => ?_,
        .inr ?_⟩
      · have hadapted := (maybeAutoDisable_spec _ _).1 hactive
        rw [adaptDraftLength_active] at hadapted
        exact hemitted.active.symm.trans hadapted
      · exact ⟨s'.self, _, _, hemitted.draftLength, (maybeAutoDisable_spec _ _).2⟩

theorem step_adapts {s : LoopState K} (hattached : Attached call s) (hsync : TargetInSync call s) :
    Adapts call s.self (stateAfter (call.step s)).self := by
  have hiterates := step_iterates hattached
  generalize call.step s = out at hiterates
  cases hiterates with
  | ended => exact ⟨id, .inl rfl⟩
  | lookupThrew => exact ⟨id, .inl rfl⟩
  | gaveUp _ hdrafting _ hsame => exact ⟨fun _ => hdrafting.active, .inl hsame.draftLength⟩
  | @verified draft drafted hrunning hdrafting _ hne hdrafts =>
      have hsame := hdrafts.untouched
      have hdrafted := hsync.of_untouched hsame
      have hverified := verifyPhase_verified hdrafted (hsame.running.mpr hrunning) hne
      generalize call.verifyPhase draft drafted = out at hverified
      cases hverified with
      | outOfRange _ hcut =>
          exact ⟨fun _ => hdrafting.active, .inl (hcut.draftLength.trans hsame.draftLength)⟩
      | rollbackFailed _ hcut =>
          exact ⟨fun _ => hdrafting.active, .inl (hcut.draftLength.trans hsame.draftLength)⟩
      | @synced result synced _ hsynced =>
          obtain ⟨-, -, -, hadapts⟩ := stateAfter_emitVerified call draft.tokens.length result synced
          have hlength := hsynced.draftLength.trans hsame.draftLength
          refine ⟨fun _ => hdrafting.active, ?_⟩
          rw [← hlength]
          exact hadapts.draftLength
  | @plain same t sampler _ _ hsame _ hactive =>
      have hemitted := stateAfter_emit call [t] { same with
        lookupSkip := false, targetKv := s.targetKv ++ [s.cur], base := s.base + 1, sampler }
      exact ⟨fun hafter => (hactive (hemitted.active.symm.trans hafter)).1,
        .inl (hemitted.draftLength.trans hsame.draftLength)⟩

variable (call) in
/-- The prefill of the draft model leaves the draft length alone, and switches speculation off
at most. -/
theorem draftPrefill_adapts (prompt : List TokenId) (base : ℕ) (self : DecoderState)
    (draftState : DraftState) :
    Adapts call self (call.draftPrefill prompt base self draftState).1 := by
  have hself : Adapts call self self := ⟨id, .inl rfl⟩
  rw [draftPrefill]
  split
  · by_cases hactive : self.speculativeActive = true
    · have hoff : Adapts call self { self with speculativeActive := false } :=
        ⟨fun _ => hactive, .inl rfl⟩
      rw [if_pos hactive]
      split
      · exact hoff
      · split
        · split
          · exact hoff
          · exact hself
        · exact hself
    · rw [if_neg hactive]
      exact hself
  · exact hself

theorem Attached.of_adapts {s s' : LoopState K} (hattached : Attached call s)
    (hadapts : Adapts call s.self s'.self) : Attached call s' :=
  fun hmode hactive => hattached hmode (hadapts.active hactive)

end Call

end Reame.Speculative
