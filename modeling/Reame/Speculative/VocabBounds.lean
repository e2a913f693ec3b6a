import Reame.Speculative.KvSync

/-!
# Drafted tokens as indices

The constructor accepts a draft model whose vocabulary is up to 128 entries larger or smaller
than the target's, and the generation loop looks at the smaller case only: a newest token outside
the draft's table switches speculation off.  `IndicesInBounds` says what the rest of the code
relies on: every token of a verification batch is a token of the target, every lookup of
`verify_batch` is in range, and the draft model is fed nothing beyond its own table.

`indices_in_bounds_iff` says for which vocabularies and prompts this holds, whatever the two
models return.  Two things can go wrong: a draft table that is larger than the target's
(nobody looks at a drafted token before it is used as an index), and a prompt with a token
outside the draft's table before its last one (the prefill feeds it).
-/

namespace Reame.Speculative

open Reame.Core

/-- The tokens an operation feeds. -/
def KvOp.tokens : KvOp → List TokenId
  | .append tokens => tokens
  | _ => []

variable {K : Type*} [Field K] [LinearOrder K]

/-- A rollout that starts from a token of the draft's vocabulary feeds only such tokens. -/
theorem rolloutOps_fed {lib : StdLib K} {backend : FaultyBackend K} {n : ℕ} {cur : TokenId}
    {history : List TokenId} {sampler : Sampler K} {draft : DraftState}
    (hcur : cur < backend.vocabSize) {op : KvOp}
    (hop : op ∈ rolloutOps lib backend n cur history sampler draft) :
    ∀ t ∈ op.tokens, t < backend.vocabSize := by
  induction n generalizing cur history sampler draft with
  | zero => cases hop
  | succ n ih =>
      rw [rolloutOps] at hop
      rcases List.mem_cons.mp hop with rfl | hop
      · intro t ht
        obtain rfl := List.mem_singleton.mp ht
        exact hcur
      · rcases backend.decodeAppend_spec draft [cur] with ⟨_, _, hcall⟩ | hcall
        · rw [hcall] at hop
          cases hop
        · rw [hcall] at hop
          dsimp only at hop
          cases hdist : sampler.distribution lib (backend.logits (draft.kv ++ [cur])) history with
          | error fault =>
              rw [hdist] at hop
              cases hop
          | ok probs =>
              rw [hdist] at hop
              dsimp only at hop
              cases hdraw : sampler.draw probs with
              | mk drawn sampler' =>
                  rw [hdraw] at hop
                  cases drawn with
                  | error fault => cases hop
                  | ok next =>
                      -- What is drawn is an index into the logits, so it can be fed next.
                      have hnext : next < backend.vocabSize := by
                        have hrange := (Sampler.draw_spec hdraw).2
                        rw [(Sampler.distribution_spec hdist).1, backend.length_logits] at hrange
                        exact hrange
                      dsimp only at hop
                      by_cases heos : next = backend.eosToken
                      · rw [if_pos heos] at hop
                        cases hop
                      · rw [if_neg heos] at hop
                        exact ih hnext hop

namespace Call

/-! ## What has to hold -/

/-- An iteration verifies a draft, from the state `drafted`. -/
def Verifies (call : Call K) (s : LoopState K) (draft : DraftResult K) (drafted : LoopState K) :
    Prop :=
  call.Running s ∧ Drafting call s ∧ call.draftPhase s = .proposed draft drafted

/-- Every token of a verification batch is a token of the target, every lookup of a verification
is in range, and the draft model is fed tokens of its own vocabulary only. -/
structure IndicesInBounds (call : Call K) (draftVocab : ℕ) (members : DecoderState)
    (draftState : DraftState) (prompt : List TokenId) : Prop where
  prefill : ∀ op ∈ call.draftPrefillOps members draftState prompt, ∀ t ∈ op.tokens, t < draftVocab
  fed : ∀ s, Loop.Visits call.step (call.initial members draftState prompt) s →
    ∀ op ∈ call.draftOps s, ∀ t ∈ op.tokens, t < draftVocab
  batch : ∀ s draft drafted, Loop.Visits call.step (call.initial members draftState prompt) s →
    call.Verifies s draft drafted → ∀ t ∈ drafted.cur :: draft.tokens, call.decoder.target.InVocab t
  lookups : ∀ s draft drafted, Loop.Visits call.step (call.initial members draftState prompt) s →
    call.Verifies s draft drafted → call.verdict draft drafted ≠ .error .outOfBounds

/-- The vocabularies and the prompt go together: the draft model knows every token its prefill
feeds, and if it knows the last one too, the target knows that one and all of the draft's. -/
def VocabsFit (targetVocab draftVocab : ℕ) (prompt : List TokenId) : Prop :=
  (∀ t ∈ prompt.dropLast, t < draftVocab) ∧
    (prompt.getLastD 0 < draftVocab → draftVocab ≤ targetVocab ∧ 0 ≤ prompt.getLastD 0)

/-! ## Vocabularies that fit -/

variable {call : Call K} {backend : FaultyBackend K}

theorem draftVocab_of_model (hmode : call.modelMode = true)
    (hbackend : call.decoder.draft = some backend) : call.draftVocab = backend.vocabSize := by
  rw [draftVocab, hmode, hbackend]

/-- The newest token is one of those just emitted. -/
theorem EmittedOn.cur_mem {tokens : List TokenId} {s s' : LoopState K}
    (hemitted : EmittedOn call tokens s s') (hne : tokens ≠ [])
    (hcur : s.history.getLast? = some s.cur) : s'.cur ∈ tokens := by
  obtain ⟨emitted, hpre, hhistory, hnonempty⟩ := hemitted.partly
  have hlast := hemitted.cur hcur
  rw [hhistory, List.getLast?_append_of_ne_nil _ (hnonempty hne)] at hlast
  exact hpre.subset (List.mem_of_getLast? hlast)

/-- The loop invariant: as long as the draft model knows the newest token and is used, the target
knows it, and all the others of the draft. -/
structure CurFits (call : Call K) (draftVocab : ℕ) (s : LoopState K) : Prop
    extends TargetInSync call s where
  fits : s.self.speculativeActive = true → s.cur < draftVocab →
    draftVocab ≤ call.decoder.target.vocabSize ∧ 0 ≤ s.cur
  skip : s.self.speculativeActive = true → s.lookupSkip = false

/-- What a draft model of no larger vocabulary proposes can be verified. -/
theorem CurFits.proposed (hmode : call.modelMode = true)
    (hbackend : call.decoder.draft = some backend) {s drafted : LoopState K}
    {draft : DraftResult K} (hfits : CurFits call backend.vocabSize s)
    (hdrafting : Drafting call s) (hdrafts : Drafts call s draft drafted) :
    backend.vocabSize ≤ call.decoder.target.vocabSize ∧ 0 ≤ s.cur ∧
      DraftInVocab backend.vocabSize draft.tokens draft.probs := by
  have hcur := hdrafting.cur hmode
  rw [draftVocab_of_model hmode hbackend] at hcur
  obtain ⟨hle, hlow⟩ := hfits.fits hdrafting.active hcur
  refine ⟨hle, hlow, ?_⟩
  cases hdrafts with
  | model _ hbackend' _ hrolled =>
      rw [hbackend] at hbackend'
      cases hbackend'
      exact hrolled.inVocab
  | lookup hlookup =>
      rw [hmode] at hlookup
      cases hlookup

/-- One iteration keeps the newest token fit to draft from. -/
theorem step_curFits (hmode : call.modelMode = true) (hbackend : call.decoder.draft = some backend)
    {s s' : LoopState K} (hfits : CurFits call backend.vocabSize s)
    (hstep : call.step s = .inl s') : CurFits call backend.vocabSize s' := by
  have hattached : Attached call s := fun _ _ => by rw [hbackend]; rfl
  have hiterates := step_iterates hattached
  have hsync' := step_inSync hattached hfits.toTargetInSync hstep
  rw [hstep] at hiterates
  generalize hout : (Sum.inl s' : LoopState K ⊕ (Exit × LoopState K)) = out at hiterates
  cases hiterates with
  | ended => cases hout
  | lookupThrew => cases hout
  | gaveUp _ _ _ _ hmodel =>
      cases hout
      have hoff := hmodel hmode
      exact ⟨hsync', fun hon => by simp [hoff] at hon, fun hon => by simp [hoff] at hon⟩
  | @plain same t sampler _ _ _ _ hactive =>
      -- A plain iteration of a decoder with a draft model comes from speculation being off.
      have hemitted := (emit_spec call [t] _).2 s' hout.symm
      have hoff : s'.self.speculativeActive ≠ true := by
        intro hon
        obtain ⟨hon', hskip⟩ := hactive (hemitted.same.active.symm.trans hon)
        rw [hfits.skip hon'] at hskip
        cases hskip
      exact ⟨hsync', fun hon => absurd hon hoff, fun hon => absurd hon hoff⟩
  | @verified draft drafted hrunning hdrafting _ hne hdrafts =>
      have hsame := hdrafts.untouched
      have hdrafted := hfits.toTargetInSync.of_untouched hsame
      obtain ⟨hle, -, hvocab⟩ := hfits.proposed hmode hbackend hdrafting hdrafts
      have hverified := verifyPhase_verified hdrafted (hsame.running.mpr hrunning) hne
      rw [← hout] at hverified
      obtain ⟨result, synced, after, self, hsynced, hemitted, rfl⟩ := hverified.goesOn
      have hmem := hemitted.cur_mem (newTokens_ne_nil hsynced.keeps hne)
        (by rw [hsynced.history, hsynced.cur]; exact hdrafted.cur)
      -- New tokens are accepted ones of the draft, or the correction.
      have hlow : 0 ≤ after.cur := by
        obtain ⟨kept, hkept, haccepted, -⟩ := hsynced.keeps
        rcases List.mem_append.mp hmem with hmem | hmem
        · rw [haccepted] at hmem
          exact (hvocab.mem _ (hkept.subset hmem)).1
        · exact (hsynced.corrected _ (Option.mem_toList.mp hmem)).1
      refine ⟨hsync', fun _ _ => ⟨hle, hlow⟩, fun _ => ?_⟩
      exact hemitted.same.lookupSkip.trans
        (hsynced.lookupSkip.trans (hdrafts.lookupSkip.trans hdrafting.skip))

/-- The prefill feeds the prompt without its last token. -/
theorem draftPrefillOps_fed {self : DecoderState} {draftState : DraftState} {prompt : List TokenId}
    {op : KvOp} (hop : op ∈ call.draftPrefillOps self draftState prompt) :
    ∀ t ∈ op.tokens, t ∈ prompt.dropLast := by
  intro t ht
  rw [List.dropLast_eq_take]
  rw [draftPrefillOps] at hop
  split at hop
  · split at hop
    · rcases List.mem_cons.mp hop with rfl | hop
      · cases ht
      · split at hop
        · cases hop
        · split at hop
          · obtain rfl := List.mem_singleton.mp hop
            exact ht
          · cases hop
    · cases hop
  · cases hop

/-- A roll-back feeds nothing. -/
theorem rollbackOps_fed {draft : DraftResult K} {s : LoopState K} {op : KvOp}
    (hop : op ∈ call.rollbackOps draft s) : op.tokens = [] := by
  rw [rollbackOps] at hop
  split at hop
  · cases hop
  · split at hop
    · cases hop
    · rw [List.mem_singleton.mp hop]
      rfl

theorem Verifies.drafts (hbackend : call.decoder.draft = some backend) {s drafted : LoopState K}
    {draft : DraftResult K} (hverifies : call.Verifies s draft drafted) :
    draft.tokens ≠ [] ∧ Drafts call s draft drafted :=
  draftPhase_proposed (fun _ _ => by rw [hbackend]; rfl) hverifies.2.1.active hverifies.2.2

/-- An iteration feeds the draft model tokens it knows. -/
theorem draftOps_fed (hmode : call.modelMode = true) (hbackend : call.decoder.draft = some backend)
    {s : LoopState K} {op : KvOp} (hop : op ∈ call.draftOps s) :
    ∀ t ∈ op.tokens, t < backend.vocabSize := by
  by_cases hrunning : call.Running s
  · rcases drafting_or_quiet call s with hdrafting | hquiet
    · have hcur := hdrafting.cur hmode
      rw [draftVocab_of_model hmode hbackend] at hcur
      rw [draftOps_of_drafting hrunning hdrafting hmode hbackend] at hop
      rcases List.mem_append.mp hop with hop | hop
      · exact rolloutOps_fed hcur hop
      · intro t ht
        split at hop
        · cases hop
        · cases hop
        · rw [rollbackOps_fed hop] at ht
          cases ht
    · rw [draftOps_of_quiet hquiet] at hop
      cases hop
  · rw [draftOps, if_neg hrunning] at hop
    cases hop

/-- In a call whose vocabularies fit its prompt every index is in bounds. -/
theorem indicesInBounds_of_fit (hmode : call.modelMode = true)
    (hbackend : call.decoder.draft = some backend) {self : DecoderState} {draftState : DraftState}
    {prompt : List TokenId} (hne : prompt ≠ [])
    (hfit : VocabsFit call.decoder.target.vocabSize backend.vocabSize prompt) :
    IndicesInBounds call backend.vocabSize self draftState prompt := by
  have hvisited : ∀ s, Loop.Visits call.step (call.initial self draftState prompt) s →
      CurFits call backend.vocabSize s := fun s hvisit =>
    hvisit.invariant (CurFits call backend.vocabSize)
      ⟨initial_targetInSync hne self draftState, fun _ => hfit.2, fun _ => rfl⟩
      fun _ _ hbefore hstep => step_curFits hmode hbackend hbefore hstep
  refine ⟨fun op hop t ht => hfit.1 t (draftPrefillOps_fed hop t ht),
    fun s _ op hop => draftOps_fed hmode hbackend hop, fun s draft drafted hvisit hverifies => ?_,
    fun s draft drafted hvisit hverifies => ?_⟩
  · obtain ⟨-, hdrafts⟩ := hverifies.drafts hbackend
    obtain ⟨hle, hlow, hvocab⟩ := (hvisited s hvisit).proposed hmode hbackend hverifies.2.1 hdrafts
    have hcur := hverifies.2.1.cur hmode
    rw [draftVocab_of_model hmode hbackend] at hcur
    intro t ht
    rcases List.mem_cons.mp ht with rfl | ht
    · rw [hdrafts.untouched.cur]
      exact ⟨hlow, lt_of_lt_of_le hcur (Int.ofNat_le.mpr hle)⟩
    · exact (hvocab.mono hle).mem t ht
  · obtain ⟨hproposed, hdrafts⟩ := hverifies.drafts hbackend
    obtain ⟨hle, -, hvocab⟩ := (hvisited s hvisit).proposed hmode hbackend hverifies.2.1 hdrafts
    have hsame := hdrafts.untouched
    have hverified := verifyPhase_verified ((hvisited s hvisit).toTargetInSync.of_untouched hsame)
      (hsame.running.mpr hverifies.1) hproposed
    generalize call.verifyPhase draft drafted = out at hverified
    cases hverified with
    | outOfRange _ _ _ _ hbad => exact absurd (hvocab.mono hle) hbad
    | rollbackFailed hverdict => simp [hverdict]
    | synced hverdict => simp [hverdict]

/-! ## Vocabularies that do not -/

section Pair

variable [IsStrictOrderedRing K] (lib : StdLib K) {targetVocab draftVocab : ℕ}
  (htarget : 0 < targetVocab)
  (hdraft : 0 < draftVocab) {prompt : List TokenId}

omit [IsStrictOrderedRing K] in
theorem pairCall_reaches (hdiff : ((draftVocab : ℤ) - targetVocab).natAbs ≤ 128) (nCtx : ℕ)
    (fails : ℕ → Bool) :
    Reaches lib (pairCall lib nCtx htarget hdraft fails).decoder ⟨1, true, {}⟩ ⟨[], 0⟩ := by
  refine .constructed _ ?_
  simp [Decoder.construct, pairCall, preferring, clamp, not_lt.mpr hdiff]

omit [IsStrictOrderedRing K] in
/-- Without failures the prefill leaves the members alone. -/
theorem pairCall_initial_self (nCtx : ℕ) :
    ((pairCall lib nCtx htarget hdraft fun _ => false).initial ⟨1, true, {}⟩ ⟨[], 0⟩ prompt).self =
      ⟨1, true, {}⟩ := by
  rw [initial]
  dsimp only
  by_cases hpos : 0 < prompt.length - 1
  · simp [draftPrefill, pairCall, modelMode, FaultyBackend.reset, FaultyBackend.decodeAppend,
      FaultyBackend.call, hpos]
  · simp [draftPrefill, pairCall, modelMode, FaultyBackend.reset, FaultyBackend.call, hpos]

omit [IsStrictOrderedRing K] in
/-- A rollout of one token. -/
theorem rolloutLoop_one (backend : FaultyBackend K) (draft : DraftState) (cur : TokenId)
    {history : List TokenId} {sampler sampler' : Sampler K} {probs : List K} {next : TokenId}
    (hfails : backend.fails draft.calls = false)
    (hdist : sampler.distribution lib (backend.logits (draft.kv ++ [cur])) history = .ok probs)
    (hdraw : sampler.draw probs = (.ok next, sampler')) :
    rolloutLoop lib backend 1 cur history sampler draft {} =
      ⟨.ok ⟨[next], [probs]⟩, sampler', ⟨draft.kv ++ [cur], draft.calls + 1⟩⟩ := by
  have hcall : backend.decodeAppend draft [cur] =
      (.ok (backend.logits (draft.kv ++ [cur])), ⟨draft.kv ++ [cur], draft.calls + 1⟩) := by
    rw [FaultyBackend.decodeAppend, FaultyBackend.call, if_neg (by simp [hfails])]
    rfl
  rw [rolloutLoop, hcall]
  dsimp only
  rw [hdist]
  dsimp only
  rw [hdraw]
  dsimp only
  by_cases heos : next = backend.eosToken
  · rw [if_pos heos]
    rfl
  · rw [if_neg heos]
    rfl

omit [IsStrictOrderedRing K] in
theorem draftPhase_of_rollout (hmode : call.modelMode = true)
    (hbackend : call.decoder.draft = some backend) {s : LoopState K} {draft : DraftResult K}
    {sampler : Sampler K} {draftState : DraftState}
    (hrollout : rolloutLoop call.lib backend (call.rolloutLength s) s.cur s.history s.sampler
      s.draftState {} = ⟨.ok draft, sampler, draftState⟩) (hne : draft.tokens ≠ []) :
    call.draftPhase s = .proposed draft { s with sampler, draftState } := by
  rw [draftPhase, if_pos hmode, modelDraftPhase, hbackend]
  simp only [generateDraft]
  rw [← rolloutLength, hrollout]
  exact if_neg hne

/-- The pair of models verifies the draft model's favourite in its first iteration, if the draft
model knows the last token of the prompt. -/
theorem pairCall_verifies (hlast : prompt.getLastD 0 < draftVocab) :
    let call := pairCall lib (prompt.length + 1) htarget hdraft fun _ => false
    ∃ draft drafted, call.Verifies (call.initial ⟨1, true, {}⟩ ⟨[], 0⟩ prompt) draft drafted ∧
      drafted.cur = prompt.getLastD 0 ∧ draft.tokens = [((draftVocab - 1 : ℕ) : ℤ)] := by
  intro call
  set s := call.initial ⟨1, true, {}⟩ ⟨[], 0⟩ prompt with hs
  have hself : s.self = ⟨1, true, {}⟩ := pairCall_initial_self lib htarget hdraft _
  have hrunning : call.Running s := ⟨Nat.two_pos, Nat.lt_succ_self _⟩
  have hguarded : call.vocabGuard s = s := by
    rw [vocabGuard, if_neg]
    exact fun hguard => absurd hlast (not_lt.mpr hguard.2.2)
  have hdrafting : Drafting call s := ⟨hguarded, by rw [hself], rfl, fun _ => hlast⟩
  -- The room for one token is what the rollout is asked for.
  have hlength : call.rolloutLength s = 1 := by
    have hroom : (call.nCtx : ℤ) - s.history.length = 1 := by
      change ((prompt.length + 1 : ℕ) : ℤ) - prompt.length = 1
      omega
    rw [rolloutLength, nDraft, hself, hroom]
    rfl
  have hne' : (oneHot draftVocab (draftVocab - 1) : List K) ≠ [] := by
    rw [← List.length_pos_iff, length_oneHot]
    exact hdraft
  have hdist : s.sampler.distribution lib (oneHot draftVocab (draftVocab - 1)) prompt =
      .ok (oneHot draftVocab (draftVocab - 1)) := by
    rw [distribution_greedy lib (le_refl (0 : K)) hne', length_oneHot]
    have hpenalty : penalize s.sampler.config (oneHot draftVocab (draftVocab - 1) : List K) prompt =
        oneHot draftVocab (draftVocab - 1) := if_neg fun hpenalised => hpenalised.1 rfl
    rw [greedyToken, hpenalty, maxElement_oneHot (Nat.sub_lt hdraft Nat.one_pos)]
  obtain ⟨sampler, hdraw⟩ : ∃ sampler, s.sampler.draw (oneHot draftVocab (draftVocab - 1)) =
      (.ok ((draftVocab - 1 : ℕ) : ℤ), sampler) := by
    have hvariate : s.sampler.rng.next.1 < 1 := (lib.mt19937_mem _ _).2
    rw [Sampler.draw, if_neg hne']
    dsimp only
    rw [drawLoop_oneHot (Nat.sub_lt hdraft Nat.one_pos) hvariate]
    exact ⟨_, rfl⟩
  have hrollout := rolloutLoop_one lib { preferring (prompt.length + 1) draftVocab (draftVocab - 1)
    hdraft with fails := fun _ => false } s.draftState s.cur rfl hdist hdraw
  have hphase := @draftPhase_of_rollout K _ _ call _ rfl rfl s _ _ _
    (by rw [hlength]; exact hrollout) (List.cons_ne_nil _ _)
  exact ⟨_, _, ⟨hrunning, hdrafting, hphase⟩, rfl, rfl⟩

end Pair

/-- For vocabularies the constructor accepts, every call of every such decoder has its indices in
bounds exactly when the vocabularies fit the prompt. -/
theorem indices_in_bounds_iff [IsStrictOrderedRing K] (lib : StdLib K)
    {targetVocab draftVocab : ℕ} (htarget : 0 < targetVocab) (hdraft : 0 < draftVocab)
    {prompt : List TokenId} (hdiff : ((draftVocab : ℤ) - targetVocab).natAbs ≤ 128)
    (hne : prompt ≠ []) :
    (∀ (call : Call K) (backend : FaultyBackend K) (self : DecoderState) (draftState : DraftState),
      call.lib = lib → call.modelMode = true → call.decoder.draft = some backend →
      call.decoder.target.vocabSize = targetVocab → backend.vocabSize = draftVocab →
      Reaches call.lib call.decoder self draftState → call.checkPrompt prompt = .ok () →
        IndicesInBounds call draftVocab self draftState prompt) ↔
      VocabsFit targetVocab draftVocab prompt := by
  constructor
  · intro hall
    set call := pairCall lib (prompt.length + 1) htarget hdraft fun _ => false with hcall
    have hcheck : call.checkPrompt prompt = .ok () :=
      checkPrompt_ok_iff.mpr ⟨hne, Nat.le_succ _⟩
    have hbounds := hall call _ ⟨1, true, {}⟩ ⟨[], 0⟩ rfl rfl rfl rfl rfl
      (pairCall_reaches lib htarget hdraft hdiff _ _) hcheck
    refine ⟨fun t ht => ?_, fun hlast => ?_⟩
    · -- The prefill feeds all tokens before the last.
      rw [List.dropLast_eq_take] at ht
      have hpos : 0 < prompt.length - 1 := by
        by_contra hzero
        rw [Nat.eq_zero_of_not_pos hzero] at ht
        cases ht
      refine hbounds.prefill (.append (prompt.take (prompt.length - 1))) ?_ t ht
      have hops : call.draftPrefillOps ⟨1, true, {}⟩ ⟨[], 0⟩ prompt = .reset ::
          if 0 < prompt.length - 1 then [.append (prompt.take (prompt.length - 1))] else [] := rfl
      rw [hops, if_pos hpos]
      simp
    · obtain ⟨draft, drafted, hverifies, hcur, htokens⟩ :=
        pairCall_verifies lib htarget hdraft hlast
      have hbatch := hbounds.batch _ draft drafted .start hverifies
      have hlow := (hbatch drafted.cur (List.mem_cons_self ..)).1
      have hhigh := (hbatch ((draftVocab - 1 : ℕ) : ℤ) (by rw [htokens]; simp)).2
      rw [hcur] at hlow
      refine ⟨?_, hlow⟩
      have hlt : draftVocab - 1 < targetVocab := Int.ofNat_lt.mp hhigh
      omega
  · rintro hfit call backend self draftState - hmode hbackend rfl rfl - -
    exact indicesInBounds_of_fit hmode hbackend hne hfit

instance (targetVocab draftVocab : ℕ) (prompt : List TokenId) :
    Decidable (VocabsFit targetVocab draftVocab prompt) := inferInstanceAs (Decidable (_ ∧ _))

/-- A draft table with one entry of padding less, and a prompt that does not use it. -/
theorem indices_in_bounds_padded :
    IndicesInBounds (pairCall .rational 4 (Nat.succ_pos 2) Nat.two_pos fun _ => false) 2
      ⟨1, true, {}⟩ ⟨[], 0⟩ [0, 1] :=
  (indices_in_bounds_iff .rational (Nat.succ_pos 2) Nat.two_pos (by decide)
    (List.cons_ne_nil _ _)).mpr (by decide) _ _ _ _ rfl rfl rfl rfl rfl
    (pairCall_reaches .rational (Nat.succ_pos 2) Nat.two_pos (by decide) 4 _) (by decide)

/-- A draft table with one entry more: the call reads beyond the target's distribution.  A draft
table with one entry less: the prefill feeds the draft model a token it does not have. -/
theorem padded_out_of_bounds :
    let larger := pairCall .rational 2 Nat.two_pos (Nat.succ_pos 2) fun _ => false
    let smaller := pairCall .rational 4 (Nat.succ_pos 2) Nat.two_pos fun _ => false
    (larger.decoder.construct = .ok ⟨1, true, {}⟩ ∧
      (larger.generateStream 1 ⟨1, true, {}⟩ ⟨[], 0⟩ [0]).map StreamResult.exit =
        some (.threw .outOfBounds) ∧
      ¬ IndicesInBounds larger 3 ⟨1, true, {}⟩ ⟨[], 0⟩ [0]) ∧
    smaller.decoder.construct = .ok ⟨1, true, {}⟩ ∧
      smaller.draftPrefillOps ⟨1, true, {}⟩ ⟨[], 0⟩ [2, 0] = [.reset, .append [2]] ∧
      ¬ IndicesInBounds smaller 2 ⟨1, true, {}⟩ ⟨[], 0⟩ [2, 0] := by
  intro larger smaller
  refine ⟨⟨by decide, by decide +kernel, fun hbounds => ?_⟩, by decide, by decide, fun hbounds => ?_⟩
  · obtain ⟨draft, drafted, hverifies, -, htokens⟩ :=
      @pairCall_verifies ℚ _ _ _ .rational 2 3 Nat.two_pos (Nat.succ_pos 2) [0] (by decide)
    have hvocab := hbounds.batch _ draft drafted .start hverifies 2 (by rw [htokens]; simp)
    exact absurd hvocab.2 (by decide)
  · exact absurd (hbounds.prefill (.append [2]) (by decide) 2 (by decide)) (by decide)

end Call

end Reame.Speculative
