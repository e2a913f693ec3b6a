import Reame.Speculative.Iteration

/-!
# The two KV sequences

The decoder moves two models by different means: the draft token by token, the target with one
batch; and takes both back by an amount that depends on where the verification stopped.
`targetOps` and `draftOps` list the operations one iteration performs on the two sequences;
replaying them gives the sequences the iteration ends with (`targetOps_spec`, `draftOps_spec`).

At the start of every iteration both sequences hold the history without its newest token
(`kv_synchronised`).  That neither of them outgrows the context needs that the drafts fit
(`DraftFits`): `generate_draft` takes a length of zero for one that is not given, and drafts
`draft_tokens` tokens then.  With positive lengths in the configuration every draft fits
(`draftFits_of_positiveLengths`); with a shortest length of zero it may not
(`context_outgrown`).
-/

namespace Reame.Speculative

open Reame.Core

/-! ## Operations on a sequence -/

/-- What a backend is asked to do with its sequence. -/
inductive KvOp
  | reset
  | append (tokens : List TokenId)
  | truncate (n : ℕ)
deriving DecidableEq, Repr

/-- The sequence after an operation. -/
def KvOp.apply (kv : List TokenId) : KvOp → List TokenId
  | .reset => []
  | .append tokens => kv ++ tokens
  | .truncate n => LlamaBackend.truncateTo kv n

/-- Operations that never truncate to more than there is and never leave more than `nCtx`
positions. -/
def Within (nCtx : ℕ) : List KvOp → List TokenId → Prop
  | [], _ => True
  | op :: ops, kv =>
      (∀ n, op = .truncate n → n ≤ kv.length) ∧ (op.apply kv).length ≤ nCtx ∧
        Within nCtx ops (op.apply kv)

theorem within_append {nCtx : ℕ} (ops later : List KvOp) (kv : List TokenId) :
    Within nCtx (ops ++ later) kv ↔
      Within nCtx ops kv ∧ Within nCtx later (ops.foldl KvOp.apply kv) := by
  induction ops generalizing kv with
  | nil => simp [Within]
  | cons op ops ih => simp only [List.cons_append, Within, ih, List.foldl_cons, and_assoc]

theorem within_truncate {nCtx n : ℕ} {kv : List TokenId} (hn : n ≤ kv.length)
    (hkv : kv.length ≤ nCtx) : Within nCtx [.truncate n] kv := by
  refine ⟨?_, ?_, trivial⟩
  · rintro m ⟨⟩
    exact hn
  · rw [KvOp.apply, LlamaBackend.truncateTo, List.length_take]
    omega

theorem within_appendOne {nCtx : ℕ} {tokens kv : List TokenId}
    (hkv : (kv ++ tokens).length ≤ nCtx) : Within nCtx [.append tokens] kv :=
  ⟨by rintro n ⟨⟩, hkv, trivial⟩

variable {K : Type*} [Field K] [LinearOrder K]

/-- The operations of a rollout, up to a call that fails. -/
def rolloutOps (lib : StdLib K) (backend : FaultyBackend K) :
    ℕ → TokenId → List TokenId → Sampler K → DraftState → List KvOp
  | 0, _, _, _, _ => []
  | n + 1, cur, history, sampler, draft =>
      .append [cur] ::
        match backend.decodeAppend draft [cur] with
        | (.error _, _) => []
        | (.ok logits, draft) =>
            match sampler.distribution lib logits history with
            | .error _ => []
            | .ok probs =>
                match sampler.draw probs with
                | (.error _, _) => []
                | (.ok next, sampler) =>
                    if next = backend.eosToken then []
                    else rolloutOps lib backend n next (history ++ [next]) sampler draft

/-- A rollout of a draft model that does not fail performs its operations. -/
theorem rolloutOps_replay {lib : StdLib K} {backend : FaultyBackend K}
    (hfree : ∀ i, backend.fails i = false) (n : ℕ) (cur : TokenId) (history : List TokenId)
    (sampler : Sampler K) (draft : DraftState) (result : DraftResult K) :
    (rolloutLoop lib backend n cur history sampler draft result).draft.kv =
      (rolloutOps lib backend n cur history sampler draft).foldl KvOp.apply draft.kv := by
  induction n generalizing cur history sampler draft result with
  | zero => rfl
  | succ n ih =>
      have hcall : backend.decodeAppend draft [cur] =
          (.ok (backend.logits (draft.kv ++ [cur])), ⟨draft.kv ++ [cur], draft.calls + 1⟩) := by
        rw [FaultyBackend.decodeAppend, FaultyBackend.call, if_neg (by simp [hfree])]
        rfl
      rw [rolloutLoop, rolloutOps, hcall, List.foldl_cons]
      dsimp only
      cases hdist : sampler.distribution lib (backend.logits (draft.kv ++ [cur])) history with
      | error fault => rfl
      | ok probs =>
          dsimp only
          cases hdraw : sampler.draw probs with
          | mk drawn sampler' =>
              cases drawn with
              | error fault => rfl
              | ok next =>
                  dsimp only
                  by_cases heos : next = backend.eosToken
                  · rw [if_pos heos, if_pos heos]
                    rfl
                  · rw [if_neg heos, if_neg heos]
                    exact ih _ _ _ _ _

/-- A rollout appends one token at a time. -/
theorem rolloutOps_within {nCtx : ℕ} (lib : StdLib K) (backend : FaultyBackend K) (n : ℕ)
    (cur : TokenId) (history : List TokenId) (sampler : Sampler K) (draft : DraftState)
    {kv : List TokenId} (hroom : kv.length + n ≤ nCtx) :
    Within nCtx (rolloutOps lib backend n cur history sampler draft) kv := by
  induction n generalizing cur history sampler draft kv with
  | zero => trivial
  | succ n ih =>
      have hone : (kv ++ [cur]).length = kv.length + 1 := by simp
      refine ⟨by rintro m ⟨⟩, by rw [KvOp.apply, hone]; omega, ?_⟩
      split
      · trivial
      · split
        · trivial
        · split
          · trivial
          · split
            · trivial
            · exact ih _ _ _ _ (by rw [KvOp.apply, hone]; omega)

namespace Call

variable (call : Call K)

/-! ## The operations of a call -/

/-- The roll-back after a verification. -/
def rollbackOps (draft : DraftResult K) (s : LoopState K) : List KvOp :=
  match call.verdict draft s with
  | .error _ => []
  | .ok result =>
      match result.correctedToken with
      | none => []
      | some _ => [.truncate (s.base + 1 + result.acceptedTokens.length)]

/-- What an iteration asks of the target. -/
def targetOps (s : LoopState K) : List KvOp :=
  if call.Running s then
    let s := call.vocabGuard s
    if s.self.speculativeActive ∧ ¬ s.lookupSkip then
      match call.draftPhase s with
      | .retry _ => []
      | .threw _ _ => []
      | .proposed draft s =>
          .append (s.cur :: draft.tokens.dropLast) :: call.rollbackOps draft s
    else [.append [s.cur]]
  else []

/-- What an iteration asks of the draft model. -/
def draftOps (s : LoopState K) : List KvOp :=
  if call.Running s then
    let s := call.vocabGuard s
    if s.self.speculativeActive ∧ ¬ s.lookupSkip then
      match call.modelMode, call.decoder.draft with
      | true, some backend =>
          rolloutOps call.lib backend (call.rolloutLength s) s.cur s.history s.sampler
              s.draftState ++
            match call.draftPhase s with
            | .retry _ => []
            | .threw _ _ => []
            | .proposed draft s => call.rollbackOps draft s
      | _, _ => []
    else []
  else []

/-- What the prefill asks of the target. -/
def targetPrefillOps (prompt : List TokenId) : List KvOp :=
  .reset :: if 0 < prompt.length - 1 then [.append (prompt.take (prompt.length - 1))] else []

/-- What the prefill asks of the draft model, up to a call that fails. -/
def draftPrefillOps (self : DecoderState) (draftState : DraftState) (prompt : List TokenId) :
    List KvOp :=
  match call.modelMode, call.decoder.draft with
  | true, some draft =>
      if self.speculativeActive then
        .reset :: match draft.reset draftState with
          | (.error _, _) => []
          | (.ok _, _) =>
              if 0 < prompt.length - 1 then [.append (prompt.take (prompt.length - 1))] else []
      else []
  | _, _ => []

variable {call}

theorem targetOps_of_drafting {s : LoopState K} (hrunning : call.Running s)
    (hdrafting : Drafting call s) :
    call.targetOps s = match call.draftPhase s with
      | .retry _ => []
      | .threw _ _ => []
      | .proposed draft s =>
          .append (s.cur :: draft.tokens.dropLast) :: call.rollbackOps draft s := by
  rw [targetOps, if_pos hrunning, hdrafting.guarded]
  exact if_pos ⟨hdrafting.active, by simp [hdrafting.skip]⟩

theorem targetOps_of_quiet {s : LoopState K} (hrunning : call.Running s) (hquiet : Quiet call s) :
    call.targetOps s = [.append [s.cur]] := by
  rw [targetOps, if_pos hrunning]
  dsimp only
  rw [if_neg hquiet, (vocabGuard_untouched call s).1.cur]

theorem draftOps_of_lookup {s : LoopState K} (hmode : call.modelMode = false) :
    call.draftOps s = [] := by
  rw [draftOps, hmode]
  split
  · dsimp only
    split <;> rfl
  · rfl

theorem draftOps_of_quiet {s : LoopState K} (hquiet : Quiet call s) : call.draftOps s = [] := by
  rw [draftOps]
  split
  · exact if_neg hquiet
  · rfl

theorem draftOps_of_drafting {s : LoopState K} {backend : FaultyBackend K}
    (hrunning : call.Running s) (hdrafting : Drafting call s) (hmode : call.modelMode = true)
    (hbackend : call.decoder.draft = some backend) :
    call.draftOps s =
      rolloutOps call.lib backend (call.rolloutLength s) s.cur s.history s.sampler s.draftState ++
        match call.draftPhase s with
        | .retry _ => []
        | .threw _ _ => []
        | .proposed draft s => call.rollbackOps draft s := by
  rw [draftOps, if_pos hrunning, hdrafting.guarded, hmode, hbackend]
  exact if_pos ⟨hdrafting.active, by simp [hdrafting.skip]⟩

/-! ## Room in the context -/

/-- The bounds of the types behind the lengths: `context_length()` is a `std::uint32_t`,
`draft_tokens` an `int`. -/
structure LengthTypes (call : Call K) : Prop where
  context : call.nCtx < 2 ^ 32
  draftTokens : call.decoder.config.draftTokens < 2 ^ 31

/-- The conversion of the room to `int` never makes it larger. -/
theorem toInt32_le {n : ℕ} (hn : n < 2 ^ 32) :
    toInt32 n ≤ n ∧ (toInt32 n ≤ 0 → n = 0 ∨ 2 ^ 31 ≤ n) := by
  rcases Nat.lt_or_ge n (2 ^ 31) with hsmall | hlarge
  · have heq : toInt32 n = n := toInt32_of_mem (by omega) (by omega)
    rw [heq]
    omega
  · have heq : toInt32 n = (n : ℤ) - 2 ^ 32 := by
      rw [toInt32, Int.bmod_def, if_neg]
      · omega
      · omega
    rw [heq]
    omega

theorem nDraft_le {s : LoopState K} (htypes : LengthTypes call) (hrunning : call.Running s) :
    call.nDraft s ≤ (call.nCtx - s.history.length : ℕ) := by
  have hsmall : call.nCtx - s.history.length < 2 ^ 32 :=
    lt_of_le_of_lt (Nat.sub_le _ _) htypes.context
  have hroom := (toInt32_le hsmall).1
  have hcast : ((call.nCtx - s.history.length : ℕ) : ℤ) = (call.nCtx : ℤ) - s.history.length :=
    Int.ofNat_sub hrunning.2.le
  rw [hcast] at hroom ⊢
  exact (min_le_right _ _).trans hroom

/-- The draft model is not asked for more tokens than fit behind the sequence.  A draft length
below one stands for `draft_tokens`, whatever the room. -/
def DraftFits (call : Call K) (s : LoopState K) : Prop :=
  call.modelMode = true → s.self.speculativeActive = true →
    1 ≤ s.self.currentDraftTokens ∨ s.base + call.decoder.config.draftTokens.toNat ≤ call.nCtx

/-- The draft model is asked for no more tokens than fit. -/
theorem rolloutLength_le {s : LoopState K} (htypes : LengthTypes call) (hrunning : call.Running s)
    (hbase : s.history.length = s.base + 1)
    (hlength : 1 ≤ s.self.currentDraftTokens ∨
      s.base + call.decoder.config.draftTokens.toNat ≤ call.nCtx) :
    s.base + call.rolloutLength s ≤ call.nCtx := by
  have hbound := nDraft_le htypes hrunning
  have hfits := hrunning.2
  rw [rolloutLength]
  by_cases hpos : 0 < call.nDraft s
  · rw [if_pos hpos]
    omega
  rw [if_neg hpos]
  rcases hlength with hlength | hroom
  · -- The room does not fit an `int`: `draft_tokens` is used, and does.
    have hcast : ((call.nCtx - s.history.length : ℕ) : ℤ) = (call.nCtx : ℤ) - s.history.length :=
      Int.ofNat_sub hfits.le
    have hzero : toInt32 (call.nCtx - s.history.length : ℕ) ≤ 0 := by
      rw [hcast]
      rw [nDraft] at hpos
      omega
    have hlarge := (toInt32_le (lt_of_le_of_lt (Nat.sub_le _ _) htypes.context)).2 hzero
    have htokens := htypes.draftTokens
    omega
  · exact hroom

theorem length_findDraft_le (maxNgram minNgram : ℤ) (history : List TokenId) (n : ℤ) :
    (findDraft maxNgram minNgram history n).length ≤ n.toNat := by
  have hfrom : ∀ limit minN m, (findDraftFrom history limit minN m).length ≤ limit := by
    intro limit minN m
    induction m with
    | zero => exact Nat.zero_le _
    | succ m ih =>
        rw [findDraftFrom]
        split
        · exact Nat.zero_le _
        · split
          · exact ih
          · split
            · exact List.length_take_le _ _
            · exact ih
  rw [findDraft]
  split
  · exact Nat.zero_le _
  · exact hfrom _ _ _

variable (call) in
theorem length_retrievedDraft_le (history : List TokenId) (n : ℤ) :
    (call.retrievedDraft history n).length ≤ n.toNat := by
  rw [retrievedDraft]
  split
  · rename_i archive _
    split
    · exact archive.length_draft history n
    · exact length_findDraft_le _ _ _ _
  · exact length_findDraft_le _ _ _ _

/-- A lookup proposes no more tokens than it is asked for. -/
theorem length_lookupDraft_le {history tokens : List TokenId} {n : ℤ}
    (hlookup : call.lookupDraft history n = .ok tokens) : tokens.length ≤ n.toNat := by
  rw [lookupDraft] at hlookup
  by_cases hretrieved : call.retrievedDraft history n ≠ []
  · rw [if_pos hretrieved] at hlookup
    cases hlookup
    exact length_retrievedDraft_le call history n
  · rw [if_neg hretrieved] at hlookup
    dsimp only at hlookup
    by_cases hlong : n < (call.structuralDraft history).length
    · rw [if_pos hlong] at hlookup
      by_cases hnegative : n < 0
      · rw [if_pos hnegative] at hlookup
        cases hlookup
      · rw [if_neg hnegative] at hlookup
        cases hlookup
        exact List.length_take_le _ _
    · rw [if_neg hlong] at hlookup
      cases hlookup
      omega

theorem Drafts.length_le {s s' : LoopState K} {draft : DraftResult K}
    (hdrafts : Drafts call s draft s') (htypes : LengthTypes call) (hrunning : call.Running s)
    (hbase : s.history.length = s.base + 1) (hactive : s.self.speculativeActive = true)
    (hfits : DraftFits call s) : s.base + draft.tokens.length ≤ call.nCtx := by
  cases hdrafts with
  | model hmode _ _ hrolled =>
      have hroom := rolloutLength_le htypes hrunning hbase (hfits hmode hactive)
      have hle := hrolled.length_le
      omega
  | lookup _ htokens _ =>
      have hle := length_lookupDraft_le htokens
      have hroom := nDraft_le htypes hrunning
      have hfits := hrunning.2
      omega

/-- The batch of a draft that fits stays within the context. -/
theorem Drafts.batch_le {s drafted : LoopState K} {draft : DraftResult K}
    (hdrafts : Drafts call s draft drafted) (htypes : LengthTypes call)
    (hrunning : call.Running s) (hhistory : drafted.history.length = drafted.base + 1)
    (hactive : s.self.speculativeActive = true) (hne : draft.tokens ≠ [])
    (hfits : DraftFits call s) :
    (drafted.history ++ draft.tokens.dropLast).length ≤ call.nCtx := by
  have hsame := hdrafts.untouched
  have hbase : s.history.length = s.base + 1 := by rw [← hsame.history, ← hsame.base, hhistory]
  have hlength := hdrafts.length_le htypes hrunning hbase hactive hfits
  have hpos := List.length_pos_iff.mpr hne
  rw [List.length_append, List.length_dropLast, hsame.history]
  omega

/-! ## The target sequence -/

/-- The roll-back takes a sequence that has the whole batch to the emitted tokens. -/
theorem rollbackOps_spec {draft : DraftResult K} {s : LoopState K} {result : VerificationResult}
    (hverdict : call.verdict draft s = .ok result) (hkeeps : KeepsFront draft.tokens result)
    (hne : draft.tokens ≠ []) (hhistory : s.history.length = s.base + 1) :
    (call.rollbackOps draft s).foldl KvOp.apply (s.history ++ draft.tokens.dropLast) =
        s.history ++ result.newTokens.dropLast ∧
      ((s.history ++ draft.tokens.dropLast).length ≤ call.nCtx →
        Within call.nCtx (call.rollbackOps draft s) (s.history ++ draft.tokens.dropLast)) := by
  obtain ⟨kept, hkept, haccepted, hnone⟩ := hkeeps
  have hsynced := (synced_eq hne hkept haccepted hnone hhistory).1
  rw [rollbackOps, hverdict]
  dsimp only
  cases hcorrected : result.correctedToken with
  | none =>
      rw [if_pos hcorrected] at hsynced
      exact ⟨hsynced, fun _ => trivial⟩
  | some t =>
      have hproper : kept.length < draft.tokens.length := by
        refine lt_of_le_of_ne hkept.length_le fun heq => ?_
        rw [hnone.mpr (hkept.eq_of_length heq)] at hcorrected
        cases hcorrected
      rw [if_neg (by simp [hcorrected])] at hsynced
      refine ⟨hsynced, fun hroom => within_truncate ?_ hroom⟩
      rw [List.length_append, List.length_dropLast, haccepted]
      omega

/-- The target of one iteration: its operations stay within the context, and they are what the
iteration does. -/
theorem targetOps_spec {s : LoopState K} (hattached : Attached call s)
    (hsync : TargetInSync call s) (htypes : LengthTypes call) :
    (DraftFits call s → Within call.nCtx (call.targetOps s) s.targetKv) ∧
      (stateAfter (call.step s)).targetKv = (call.targetOps s).foldl KvOp.apply s.targetKv := by
  have hiterates := step_iterates hattached
  generalize call.step s = out at hiterates
  cases hiterates with
  | ended hstop =>
      rw [targetOps, if_neg hstop]
      exact ⟨fun _ => trivial, rfl⟩
  | lookupThrew hrunning hdrafting hphase =>
      rw [targetOps_of_drafting hrunning hdrafting, hphase]
      exact ⟨fun _ => trivial, rfl⟩
  | gaveUp hrunning hdrafting hphase hsame =>
      rw [targetOps_of_drafting hrunning hdrafting, hphase]
      exact ⟨fun _ => trivial, hsame.targetKv⟩
  | @plain same t sampler hrunning hquiet =>
      obtain ⟨hkv, -⟩ := hsync.kv hrunning
      rw [targetOps_of_quiet hrunning hquiet]
      refine ⟨fun _ => within_appendOne ?_, (stateAfter_emit call _ _).targetKv⟩
      rw [hkv]
      exact hrunning.2.le
  | @verified draft drafted hrunning hdrafting hphase hne hdrafts =>
      have hsame := hdrafts.untouched
      have hdrafted := hsync.of_untouched hsame
      have hrunning' := hsame.running.mpr hrunning
      have hhistory := hdrafted.length_history hrunning'
      -- The batch starts at `cur`, so behind it the target has the history and the draft.
      have hbatch : drafted.targetKv ++ drafted.cur :: draft.tokens.dropLast =
          drafted.history ++ draft.tokens.dropLast := by
        rw [← (hdrafted.kv hrunning').1, List.append_assoc, List.singleton_append]
      have hroom : DraftFits call s →
          (drafted.history ++ draft.tokens.dropLast).length ≤ call.nCtx :=
        hdrafts.batch_le htypes hrunning hhistory hdrafting.active hne
      have happend : DraftFits call s →
          Within call.nCtx [.append (drafted.cur :: draft.tokens.dropLast)] drafted.targetKv :=
        fun hfits => within_appendOne (by rw [hbatch]; exact hroom hfits)
      rw [targetOps_of_drafting hrunning hdrafting, hphase, ← hsame.targetKv]
      dsimp only
      rw [← List.singleton_append, within_append, List.foldl_append, List.foldl_cons, List.foldl_nil,
        KvOp.apply, hbatch]
      have hverified := verifyPhase_verified hdrafted hrunning' hne
      generalize call.verifyPhase draft drafted = out at hverified
      cases hverified with
      | outOfRange hverdict _ hafter =>
          rw [rollbackOps, hverdict]
          refine ⟨fun hfits => ⟨happend hfits, trivial⟩, ?_⟩
          rw [← hbatch]
          exact hafter
      | rollbackFailed hverdict _ hafter _ hkeeps =>
          obtain ⟨hreplay, hwithin⟩ := rollbackOps_spec hverdict hkeeps hne hhistory
          rw [hreplay]
          exact ⟨fun hfits => ⟨happend hfits, hwithin (hroom hfits)⟩, hafter⟩
      | synced hverdict hsynced =>
          obtain ⟨hreplay, hwithin⟩ := rollbackOps_spec hverdict hsynced.keeps hne hhistory
          rw [hreplay]
          exact ⟨fun hfits => ⟨happend hfits, hwithin (hroom hfits)⟩,
            (stateAfter_emitVerified call _ _ _).1.trans hsynced.targetKv⟩

/-! ## The draft sequence -/

/-- The draft model, if there is one, does not fail. -/
def FaultFree (call : Call K) : Prop :=
  ∀ backend, call.decoder.draft = some backend → ∀ i, backend.fails i = false

/-- The loop invariant: both sequences are in sync. -/
structure KvSynced (call : Call K) (s : LoopState K) : Prop extends TargetInSync call s where
  attached : Attached call s
  draft : call.modelMode = true → s.self.speculativeActive = true → call.Running s →
    s.draftState.kv = s.targetKv
  skip : call.modelMode = true → s.self.speculativeActive = true → s.lookupSkip = false

/-- The synchronisation of a draft model that does not fail performs the roll-back. -/
theorem rolledBack_kv {draft : DraftResult K} {s : LoopState K} {result : VerificationResult}
    (hmode : call.modelMode = true) {backend : FaultyBackend K}
    (hbackend : call.decoder.draft = some backend) (hverdict : call.verdict draft s = .ok result) :
    (call.rolledBack s result).kv = (call.rollbackOps draft s).foldl KvOp.apply s.draftState.kv := by
  rw [rolledBack, rollbackOps, hverdict, hmode, hbackend]
  cases hcorrected : result.correctedToken with
  | none => simp [hcorrected]
  | some t => simp [hcorrected, KvOp.apply, LlamaBackend.truncateTo]

/-- A rollout feeds what the batch will feed. -/
theorem Drafts.draftKv {s s' : LoopState K} {draft : DraftResult K}
    (hdrafts : Drafts call s draft s') (hmode : call.modelMode = true)
    (hkv : s.draftState.kv ++ [s.cur] = s.history) (hne : draft.tokens ≠ []) :
    s'.draftState.kv = s.history ++ draft.tokens.dropLast := by
  cases hdrafts with
  | model _ _ _ hrolled =>
      rw [hrolled.kv, List.dropLast_cons_of_ne_nil hne, List.append_cons, hkv]
  | lookup hlookup =>
      rw [hmode] at hlookup
      cases hlookup

/-- A rollout that fits stays within the context. -/
theorem KvSynced.rollout_le {s : LoopState K} (hsynced : KvSynced call s)
    (htypes : LengthTypes call) (hmode : call.modelMode = true) (hrunning : call.Running s)
    (hactive : s.self.speculativeActive = true) (hfits : DraftFits call s) :
    s.draftState.kv.length + call.rolloutLength s ≤ call.nCtx := by
  have hhistory := hsynced.length_history hrunning
  rw [hsynced.draft hmode hactive hrunning, ← (hsynced.kv hrunning).2]
  exact rolloutLength_le htypes hrunning hhistory (hfits hmode hactive)

/-- The draft model of one iteration: its operations stay within the context if the draft fits,
and they are what the iteration does; after a verification its sequence is the target's. -/
theorem draftOps_spec {s : LoopState K} (hsynced : KvSynced call s) (hfree : FaultFree call)
    (htypes : LengthTypes call) (hmode : call.modelMode = true) {backend : FaultyBackend K}
    (hbackend : call.decoder.draft = some backend) :
    (DraftFits call s → Within call.nCtx (call.draftOps s) s.draftState.kv) ∧
      (stateAfter (call.step s)).draftState.kv =
        (call.draftOps s).foldl KvOp.apply s.draftState.kv ∧
      ∀ s', call.step s = .inl s' → s'.self.speculativeActive = true →
        s'.draftState.kv = s'.targetKv ∧ s'.lookupSkip = false := by
  have hiterates := step_iterates hsynced.attached
  generalize call.step s = out at hiterates
  cases hiterates with
  | ended hstop =>
      rw [draftOps, if_neg hstop]
      exact ⟨fun _ => trivial, rfl, by rintro s' ⟨⟩⟩
  | lookupThrew _ _ _ hlookup =>
      rw [hmode] at hlookup
      cases hlookup
  | @plain same t sampler hrunning hquiet hsame hdraft hactive =>
      have hemitted := stateAfter_emit call [t] { same with
        lookupSkip := false, targetKv := s.targetKv ++ [s.cur], base := s.base + 1, sampler }
      rw [draftOps_of_quiet hquiet]
      refine ⟨fun _ => trivial, ?_, fun s' hemit hon => ?_⟩
      · rw [hemitted.draftState]
        exact congrArg DraftState.kv hdraft
      · rw [hemit] at hemitted
        obtain ⟨hon', hskip⟩ := hactive (hemitted.active.symm.trans hon)
        rw [hsynced.skip hmode hon'] at hskip
        cases hskip
  | @gaveUp s' hrunning hdrafting hphase hsame hmodel =>
      rw [draftOps_of_drafting hrunning hdrafting hmode hbackend, hphase, List.append_nil]
      refine ⟨fun hfits => rolloutOps_within _ _ _ _ _ _ _
        (hsynced.rollout_le htypes hmode hrunning hdrafting.active hfits), ?_, ?_⟩
      · rw [stateAfter, (draftPhase_draftState hmode hbackend).1 s' hphase]
        exact rolloutOps_replay (hfree backend hbackend) _ _ _ _ _ _
      · rintro after ⟨⟩ hon
        rw [hmodel hmode] at hon
        cases hon
  | @verified draft drafted hrunning hdrafting hphase hne hdrafts =>
      have hsame := hdrafts.untouched
      have hdrafted := hsynced.toTargetInSync.of_untouched hsame
      have hrunning' := hsame.running.mpr hrunning
      have hhistory := hdrafted.length_history hrunning'
      have hroom : DraftFits call s →
          (drafted.history ++ draft.tokens.dropLast).length ≤ call.nCtx :=
        hdrafts.batch_le htypes hrunning hhistory hdrafting.active hne
      -- The draft model has been fed what the batch feeds to the target.
      have hdraftKv := hsynced.draft hmode hdrafting.active hrunning
      have hrolledKv : drafted.draftState.kv = drafted.history ++ draft.tokens.dropLast := by
        rw [hsame.history]
        refine hdrafts.draftKv hmode ?_ hne
        rw [hdraftKv]
        exact (hsynced.kv hrunning).1
      have hreplayed : drafted.draftState.kv =
          (rolloutOps call.lib backend (call.rolloutLength s) s.cur s.history s.sampler
            s.draftState).foldl KvOp.apply s.draftState.kv := by
        rw [(draftPhase_draftState hmode hbackend).2 draft drafted hphase]
        exact rolloutOps_replay (hfree backend hbackend) _ _ _ _ _ _
      have hwithin : DraftFits call s → Within call.nCtx (rolloutOps call.lib backend
          (call.rolloutLength s) s.cur s.history s.sampler s.draftState) s.draftState.kv :=
        fun hfits => rolloutOps_within _ _ _ _ _ _ _
          (hsynced.rollout_le htypes hmode hrunning hdrafting.active hfits)
      rw [draftOps_of_drafting hrunning hdrafting hmode hbackend, hphase]
      dsimp only
      rw [within_append, List.foldl_append, ← hreplayed, hrolledKv]
      have hverified := verifyPhase_verified hdrafted hrunning' hne
      generalize call.verifyPhase draft drafted = out at hverified
      cases hverified with
      | outOfRange hverdict _ _ hafter =>
          rw [rollbackOps, hverdict]
          refine ⟨fun hfits => ⟨hwithin hfits, trivial⟩, ?_, by rintro after ⟨⟩⟩
          rw [List.foldl_nil, ← hrolledKv]
          exact congrArg DraftState.kv hafter
      | rollbackFailed _ _ _ _ _ hfailed =>
          -- A draft model that does not fail does not fail to roll back.
          obtain ⟨-, backend', hbackend', hfails⟩ := hfailed
          rw [hfree backend' hbackend'] at hfails
          cases hfails
      | @synced result synced hverdict hverified =>
          obtain ⟨hreplay, hrollback⟩ := rollbackOps_spec hverdict hverified.keeps hne hhistory
          have hsyncedKv : synced.draftState.kv = synced.targetKv := by
            rw [hverified.draftState, rolledBack_kv hmode hbackend hverdict, hrolledKv, hreplay,
              hverified.targetKv]
          obtain ⟨htargetKv, hdraftState, hskip, -⟩ :=
            stateAfter_emitVerified call draft.tokens.length result synced
          rw [hreplay]
          refine ⟨fun hfits => ⟨hwithin hfits, hrollback (hroom hfits)⟩, ?_,
            fun s' hemit hon => ⟨?_, ?_⟩⟩
          · rw [hdraftState, hsyncedKv, hverified.targetKv]
          · rw [hemit] at htargetKv hdraftState
            exact (congrArg DraftState.kv hdraftState).trans (hsyncedKv.trans htargetKv.symm)
          · rw [hemit] at hskip
            exact hskip.trans (hverified.lookupSkip.trans (hdrafts.lookupSkip.trans hdrafting.skip))

/-! ## The loop -/

/-- One iteration keeps both sequences in sync. -/
theorem step_kvSynced {s s' : LoopState K} (hsynced : KvSynced call s) (hfree : FaultFree call)
    (htypes : LengthTypes call) (hstep : call.step s = .inl s') : KvSynced call s' := by
  have hadapts := step_adapts hsynced.attached hsynced.toTargetInSync
  rw [hstep] at hadapts
  have hattached := hsynced.attached.of_adapts hadapts
  have hdraft : call.modelMode = true → s'.self.speculativeActive = true →
      s'.draftState.kv = s'.targetKv ∧ s'.lookupSkip = false := by
    intro hmode hactive
    obtain ⟨backend, hbackend⟩ := Option.isSome_iff_exists.mp (hattached hmode hactive)
    exact (draftOps_spec hsynced hfree htypes hmode hbackend).2.2 s' hstep hactive
  exact ⟨step_inSync hsynced.attached hsynced.toTargetInSync hstep, hattached,
    fun hmode hactive _ => (hdraft hmode hactive).1,
    fun hmode hactive => (hdraft hmode hactive).2⟩

/-! ## Whole calls -/

/-- Between two calls: a draft model is there if the decoder speculates with one. -/
def Equipped (call : Call K) (members : DecoderState) : Prop :=
  call.modelMode = true → members.speculativeActive = true → call.decoder.draft.isSome

theorem Equipped.adapts {before after : DecoderState} (hself : Equipped call before)
    (hadapts : Adapts call before after) : Equipped call after :=
  fun hmode hactive => hself hmode (hadapts.active hactive)

omit [Field K] [LinearOrder K] in
/-- The constructor clamps the draft length. -/
theorem members_of_construct {decoder : Decoder K} {self : DecoderState}
    (hself : decoder.construct = .ok self) :
    self.currentDraftTokens = clamp decoder.config.draftTokens decoder.config.minDraftTokens
        decoder.config.maxDraftTokens ∧
      self.speculativeActive = (decoder.config.useSpeculative &&
        (decoder.config.mode == .promptLookup || decoder.draft.isSome)) := by
  rw [Decoder.construct] at hself
  dsimp only at hself
  split at hself
  · cases hself
    exact ⟨rfl, rfl⟩
  · split at hself
    · cases hself
    · cases hself
      exact ⟨rfl, rfl⟩

theorem equipped_of_construct {self : DecoderState} (hself : call.decoder.construct = .ok self) :
    Equipped call self := by
  intro hmode hactive
  rw [(members_of_construct hself).2, Bool.and_eq_true, Bool.or_eq_true] at hactive
  rcases hactive.2 with hlookup | hdraft
  · rw [modelMode, beq_iff_eq] at hmode
    rw [hmode] at hlookup
    cases hlookup
  · exact hdraft

/-- What the members keep through every iteration they keep through a loop, provided that they
go with the draft model that is used. -/
theorem exits_keeps {Keeps : DecoderState → Prop}
    (hattached : ∀ s : LoopState K, Keeps s.self → Attached call s)
    (hkeeps : ∀ before after, Keeps before → Adapts call before after → Keeps after)
    {s : LoopState K} {out : Exit × LoopState K} (hexits : Loop.Exits call.step s out)
    (hsync : TargetInSync call s) (hself : Keeps s.self) : Keeps out.2.self := by
  induction hexits with
  | leave hstep =>
      have hadapts := step_adapts (hattached _ hself) hsync
      rw [hstep] at hadapts
      exact hkeeps _ _ hself hadapts
  | next hstep _ ih =>
      have hadapts := step_adapts (hattached _ hself) hsync
      rw [hstep] at hadapts
      exact ih (step_inSync (hattached _ hself) hsync hstep) (hkeeps _ _ hself hadapts)

/-- The prefill of a draft model that does not fail. -/
theorem draftPrefill_kv {backend : FaultyBackend K} (hmode : call.modelMode = true)
    (hbackend : call.decoder.draft = some backend) (hfree : ∀ i, backend.fails i = false)
    {self : DecoderState} (hactive : self.speculativeActive = true) (draftState : DraftState)
    (prompt : List TokenId) :
    (call.draftPrefill prompt (prompt.length - 1) self draftState).2.kv =
      prompt.take (prompt.length - 1) := by
  rw [draftPrefill, hmode, hbackend]
  simp only [if_pos hactive, FaultyBackend.reset, FaultyBackend.decodeAppend, FaultyBackend.call,
    hfree, Bool.false_eq_true, if_false, LlamaBackend.decodeAppend, List.nil_append]
  by_cases hpos : 0 < prompt.length - 1
  · rw [if_pos hpos]
  · rw [if_neg hpos, Nat.eq_zero_of_not_pos hpos, List.take_zero]

/-- The loop is entered with both sequences in sync. -/
theorem initial_kvSynced {prompt : List TokenId} (hne : prompt ≠ []) {self : DecoderState}
    (hself : Equipped call self) (hfree : FaultFree call) (draftState : DraftState) :
    KvSynced call (call.initial self draftState prompt) := by
  have hadapts := draftPrefill_adapts call prompt (prompt.length - 1) self draftState
  refine ⟨initial_targetInSync hne self draftState, hself.adapts hadapts, ?_, fun _ _ => rfl⟩
  intro hmode hactive _
  have hbefore := hadapts.active hactive
  obtain ⟨backend, hbackend⟩ := Option.isSome_iff_exists.mp (hself hmode hbefore)
  rw [initial_targetKv]
  exact draftPrefill_kv hmode hbackend (hfree backend hbackend) hbefore draftState prompt

/-- The prefill stays within the context. -/
theorem prefillOps_within {prompt : List TokenId} (hfits : prompt.length ≤ call.nCtx)
    (kv : List TokenId) (self : DecoderState) (draftState : DraftState) :
    Within call.nCtx (targetPrefillOps prompt) kv ∧
      Within call.nCtx (call.draftPrefillOps self draftState prompt) draftState.kv := by
  have happend : Within call.nCtx
      (if 0 < prompt.length - 1 then [.append (prompt.take (prompt.length - 1))] else []) [] := by
    by_cases hpos : 0 < prompt.length - 1
    · rw [if_pos hpos]
      refine within_appendOne ?_
      rw [List.nil_append, List.length_take]
      omega
    · rw [if_neg hpos]
      trivial
  have hreset : ∀ {ops : List KvOp} {kv : List TokenId}, Within call.nCtx ops [] →
      Within call.nCtx (.reset :: ops) kv :=
    fun hops => ⟨by rintro n ⟨⟩, Nat.zero_le _, hops⟩
  refine ⟨hreset happend, ?_⟩
  rw [draftPrefillOps]
  split
  · split
    · refine hreset ?_
      split
      · trivial
      · exact happend
    · trivial
  · trivial

/-- The prefill performs its operations. -/
theorem prefillOps_replay (kv : List TokenId) (self : DecoderState) (draftState : DraftState)
    (prompt : List TokenId) (hfree : FaultFree call) :
    (call.initial self draftState prompt).targetKv =
        (targetPrefillOps prompt).foldl KvOp.apply kv ∧
      (call.initial self draftState prompt).draftState.kv =
        (call.draftPrefillOps self draftState prompt).foldl KvOp.apply draftState.kv := by
  constructor
  · rw [initial_targetKv, targetPrefillOps]
    by_cases hpos : 0 < prompt.length - 1
    · rw [if_pos hpos]
      rfl
    · rw [if_neg hpos, Nat.eq_zero_of_not_pos hpos]
      rfl
  · change (call.draftPrefill prompt (prompt.length - 1) self draftState).2.kv = _
    rw [draftPrefillOps]
    cases hmode : call.modelMode with
    | false => simp [draftPrefill, hmode]
    | true =>
        cases hbackend : call.decoder.draft with
        | none => simp [draftPrefill, hmode, hbackend]
        | some backend =>
            by_cases hactive : self.speculativeActive = true
            · have hno := hfree backend hbackend
              rw [draftPrefill_kv hmode hbackend hno hactive]
              dsimp only
              rw [if_pos hactive]
              simp only [FaultyBackend.reset, FaultyBackend.call, hno, Bool.false_eq_true, if_false]
              by_cases hpos : 0 < prompt.length - 1
              · rw [if_pos hpos]
                rfl
              · rw [if_neg hpos, Nat.eq_zero_of_not_pos hpos]
                rfl
            · simp [draftPrefill, hmode, hbackend, hactive]

end Call

/-- The states a decoder and its draft model can be in between two calls. -/
inductive Reaches (lib : StdLib K) (decoder : Decoder K) : DecoderState → DraftState → Prop
  | constructed {self : DecoderState} (draftState : DraftState)
      (hself : decoder.construct = .ok self) : Reaches lib decoder self draftState
  | called {self : DecoderState} {draftState : DraftState} {gen : GenerationConfig K}
      {callback : TokenCallback} {fuel : ℕ} {prompt : List TokenId} {result : StreamResult}
      (hreaches : Reaches lib decoder self draftState)
      (hcall : (Call.mk lib decoder gen callback).generateStream fuel self draftState prompt =
        some result) : Reaches lib decoder result.self result.draftState

/-- What holds of the members of a new decoder, and is kept by every iteration of every call,
holds between any two calls. -/
theorem Reaches.invariant {lib : StdLib K} {decoder : Decoder K} {self : DecoderState}
    {draftState : DraftState} (hreaches : Reaches lib decoder self draftState)
    (Keeps : DecoderState → Prop) (hstart : ∀ self, decoder.construct = .ok self → Keeps self)
    (hattached : ∀ (gen : GenerationConfig K) callback (s : LoopState K), Keeps s.self →
      Call.Attached ⟨lib, decoder, gen, callback⟩ s)
    (hkeeps : ∀ (gen : GenerationConfig K) callback before after, Keeps before →
      Call.Adapts ⟨lib, decoder, gen, callback⟩ before after → Keeps after) : Keeps self := by
  induction hreaches with
  | constructed _ hself => exact hstart _ hself
  | @called self draftState gen callback fuel prompt result _ hcall ih =>
      rw [Call.generateStream] at hcall
      cases hcheck : (Call.mk lib decoder gen callback).checkPrompt prompt with
      | error fault =>
          rw [hcheck] at hcall
          cases hcall
          exact ih
      | ok _ =>
          rw [hcheck] at hcall
          obtain ⟨out, hrun, rfl⟩ := Option.map_eq_some_iff.mp hcall
          have hne : prompt ≠ [] := by
            rintro rfl
            cases hcheck
          have hinitial := hkeeps gen callback _ _ ih
            (Call.draftPrefill_adapts _ prompt (prompt.length - 1) self draftState)
          exact Call.exits_keeps (hattached gen callback) (hkeeps gen callback) (.of_run hrun)
            (Call.initial_targetInSync hne self draftState) hinitial

namespace Call

variable {call : Call K}

theorem equipped_of_reaches {self : DecoderState} {draftState : DraftState}
    (hreaches : Reaches call.lib call.decoder self draftState) : Equipped call self := by
  -- `Equipped` speaks of the decoder only, so it carries over to the earlier calls.
  refine hreaches.invariant (Equipped call) (fun _ hself => equipped_of_construct hself)
    (fun _ _ _ hself => hself) fun gen callback before after hself hadapts => ?_
  exact hself.adapts ⟨hadapts.active, hadapts.draftLength⟩

/-- A call enters every iteration with both sequences in sync. -/
theorem kvSynced_of_visits {self : DecoderState} {draftState : DraftState} {prompt : List TokenId}
    (hfree : FaultFree call) (htypes : LengthTypes call)
    (hreaches : Reaches call.lib call.decoder self draftState) (hne : prompt ≠ [])
    {s : LoopState K} (hvisit : Loop.Visits call.step (call.initial self draftState prompt) s) :
    KvSynced call s :=
  hvisit.invariant (KvSynced call)
    (initial_kvSynced hne (equipped_of_reaches hreaches) hfree draftState)
    fun _ _ hbefore hstep => step_kvSynced hbefore hfree htypes hstep

/-- Every call, on a decoder in any state it can be in: at the start of every iteration the
target sequence, and with an active draft model the draft sequence too, holds the history
without `cur`, its newest token.  If the drafts fit, no truncation is asked to keep more than
there is, and neither sequence ever has more than `n_ctx` positions. -/
theorem kv_synchronised {self : DecoderState} {draftState : DraftState} {prompt : List TokenId}
    (hfree : FaultFree call) (htypes : LengthTypes call)
    (hreaches : Reaches call.lib call.decoder self draftState)
    (hcheck : call.checkPrompt prompt = .ok ()) :
    (∀ kv, Within call.nCtx (targetPrefillOps prompt) kv) ∧
      Within call.nCtx (call.draftPrefillOps self draftState prompt) draftState.kv ∧
      ∀ s, Loop.Visits call.step (call.initial self draftState prompt) s →
        (call.Running s → s.targetKv = s.history.dropLast ∧ s.base = s.targetKv.length ∧
          s.history.getLast? = some s.cur ∧
          (call.modelMode = true → s.self.speculativeActive = true →
            s.draftState.kv = s.history.dropLast)) ∧
        (DraftFits call s → Within call.nCtx (call.targetOps s) s.targetKv ∧
          Within call.nCtx (call.draftOps s) s.draftState.kv) := by
  obtain ⟨hne, hfits⟩ := checkPrompt_ok_iff.mp hcheck
  refine ⟨fun kv => (prefillOps_within hfits kv self draftState).1,
    (prefillOps_within hfits [] self draftState).2, fun s hvisit => ?_⟩
  have hsynced : KvSynced call s := kvSynced_of_visits hfree htypes hreaches hne hvisit
  refine ⟨fun hrunning => ?_, fun hroom => ⟨?_, ?_⟩⟩
  · obtain ⟨hkv, hbase⟩ := hsynced.kv hrunning
    have htarget : s.targetKv = s.history.dropLast := by
      rw [← hkv, List.dropLast_concat]
    exact ⟨htarget, hbase, hsynced.cur,
      fun hmode hactive => (hsynced.draft hmode hactive hrunning).trans htarget⟩
  · exact (targetOps_spec hsynced.attached hsynced.toTargetInSync htypes).1 hroom
  · cases hmode : call.modelMode with
    | false =>
        rw [draftOps_of_lookup hmode]
        trivial
    | true =>
        rcases drafting_or_quiet call s with hdrafting | hquiet
        · obtain ⟨backend, hbackend⟩ :=
            Option.isSome_iff_exists.mp (hsynced.attached hmode hdrafting.active)
          exact (draftOps_spec hsynced hfree htypes hmode hbackend).1 hroom
        · rw [draftOps_of_quiet hquiet]
          trivial

/-! ## Positive draft lengths -/

/-- The configured draft lengths are positive `int`s that can be raised by two.  They matter for
a draft model only. -/
def PositiveLengths (call : Call K) : Prop :=
  call.modelMode = true →
    (1 ≤ call.decoder.config.minDraftTokens ∧ call.decoder.config.minDraftTokens ≤ 2 ^ 31 - 3) ∧
      1 ≤ call.decoder.config.maxDraftTokens ∧ call.decoder.config.maxDraftTokens ≤ 2 ^ 31 - 3

/-- The draft length is positive too. -/
structure PositiveLength (call : Call K) (members : DecoderState) : Prop where
  equipped : Equipped call members
  length : call.modelMode = true →
    1 ≤ members.currentDraftTokens ∧ members.currentDraftTokens ≤ 2 ^ 31 - 3

theorem PositiveLength.adapts {before after : DecoderState} (hself : PositiveLength call before)
    (hlengths : PositiveLengths call) (hadapts : Adapts call before after) :
    PositiveLength call after := by
  refine ⟨hself.equipped.adapts hadapts, fun hmode => ?_⟩
  obtain ⟨hmin, hmax⟩ := hlengths hmode
  have hbefore := hself.length hmode
  rcases hadapts.draftLength with hsame | ⟨self, accepted, drafted, hself, hafter⟩
  · rw [hsame]
    exact hbefore
  · rw [← hself] at hbefore
    rw [hafter]
    exact adaptDraftLength_mem zero_le_one hmin hmax hbefore accepted drafted

theorem positiveLength_of_construct {self : DecoderState} (hlengths : PositiveLengths call)
    (hself : call.decoder.construct = .ok self) : PositiveLength call self := by
  refine ⟨equipped_of_construct hself, fun hmode => ?_⟩
  obtain ⟨hmin, hmax⟩ := hlengths hmode
  rw [(members_of_construct hself).1, clamp]
  omega

/-- With positive draft lengths every draft fits. -/
theorem draftFits_of_positiveLengths {self : DecoderState} {draftState : DraftState}
    {prompt : List TokenId} (hlengths : PositiveLengths call)
    (hreaches : Reaches call.lib call.decoder self draftState) (hne : prompt ≠ [])
    {s : LoopState K} (hvisit : Loop.Visits call.step (call.initial self draftState prompt) s) :
    DraftFits call s := by
  have hself : PositiveLength call self := by
    refine hreaches.invariant (PositiveLength call)
      (fun _ hself => positiveLength_of_construct hlengths hself)
      (fun _ _ _ hself => hself.equipped) fun gen callback before after hself hadapts => ?_
    exact hself.adapts hlengths ⟨hadapts.active, hadapts.draftLength⟩
  have hkept : TargetInSync call s ∧ PositiveLength call s.self := by
    refine hvisit.invariant (fun s => TargetInSync call s ∧ PositiveLength call s.self) ?_ ?_
    · exact ⟨initial_targetInSync hne self draftState,
        hself.adapts hlengths (draftPrefill_adapts call prompt (prompt.length - 1) self draftState)⟩
    · rintro before after ⟨hsync, hbefore⟩ hstep
      have hadapts := step_adapts hbefore.equipped hsync
      rw [hstep] at hadapts
      exact ⟨step_inSync hbefore.equipped hsync hstep, hbefore.adapts hlengths hadapts⟩
  exact fun hmode _ => .inl (hkept.2.length hmode).1

/-! ## A pair of models -/

/-- A model that prefers one token whatever it has read, without an end-of-sequence token. -/
def preferring (nCtx vocabSize favourite : ℕ) (hpos : 0 < vocabSize) : LlamaBackend K where
  vocabSize
  contextLength := nCtx
  eosToken := -1
  isEog := fun _ => false
  logits := fun _ => oneHot vocabSize favourite
  tokenize := fun _ _ => []
  detokenize := fun _ => []
  tokenPiece := fun _ => []
  vocabSize_pos := hpos
  length_logits := fun _ => length_oneHot _ _

/-- A greedy decoder for a target that prefers token `0`, with a draft model that prefers the last
token of its vocabulary and whose calls fail as given; it drafts one token at a time. -/
def pairCall (lib : StdLib K) (nCtx : ℕ) {targetVocab draftVocab : ℕ} (htarget : 0 < targetVocab)
    (hdraft : 0 < draftVocab) (fails : ℕ → Bool) : Call K where
  lib
  decoder :=
    { target := preferring nCtx targetVocab 0 htarget
      draft := some { preferring nCtx draftVocab (draftVocab - 1) hdraft with fails }
      config :=
        { mode := .modelDraft
          draftTokens := 1
          minDraftTokens := 1
          maxDraftTokens := 1
          lookupMaxNgram := 3
          lookupMinNgram := 1
          corpus := none
          useSpeculative := true
          disableAfterDrafted := 96
          disableBelowAcceptance := 3 / 10 } }
  gen :=
    { maxTokens := 2
      temperature := 0
      topP := 1
      repeatPenalty := 1
      repeatLastN := 0
      seed := 42
      echoPrompt := false }
  callback := fun _ => .keepGoing

/-- A call whose first draft is rejected at once. -/
theorem kv_synchronised_rejected :
    let call := pairCall .rational 4 Nat.two_pos Nat.two_pos fun _ => false
    call.Running (call.initial ⟨1, true, {}⟩ ⟨[], 0⟩ [0]) ∧
      ∀ s, Loop.Visits call.step (call.initial ⟨1, true, {}⟩ ⟨[], 0⟩ [0]) s → call.Running s →
        s.targetKv = s.history.dropLast ∧ Within 4 (call.draftOps s) s.draftState.kv := by
  intro call
  refine ⟨by decide, fun s hvisit hrunning => ?_⟩
  have hfree : FaultFree call := fun _ hbackend => by
    cases hbackend
    exact fun _ => rfl
  have hreaches : Reaches call.lib call.decoder ⟨1, true, {}⟩ ⟨[], 0⟩ :=
    .constructed ⟨[], 0⟩ (by decide : call.decoder.construct = .ok ⟨1, true, {}⟩)
  have hfits : DraftFits call s :=
    draftFits_of_positiveLengths (fun _ => by decide) hreaches (by decide) hvisit
  obtain ⟨hsync, hroom⟩ := (kv_synchronised hfree ⟨by decide, by decide⟩ hreaches
    (by decide : call.checkPrompt [0] = .ok ())).2.2 s hvisit
  exact ⟨(hsync hrunning).1, (hroom hfits).2⟩

theorem eq_inl_of_isLeft {s : LoopState K} (hleft : (call.step s).isLeft = true) :
    call.step s = .inl (stateAfter (call.step s)) := by
  cases hstep : call.step s with
  | inl after => rfl
  | inr out =>
      rw [hstep] at hleft
      cases hleft

/-- The same models with a shortest draft length of zero: three tokens are drafted, one, and
then none, which stands for three again, with room for one. -/
theorem context_outgrown :
    let pair := pairCall .rational 4 Nat.two_pos Nat.two_pos fun _ => false
    let config :=
      { pair.decoder.config with draftTokens := 3, minDraftTokens := 0, maxDraftTokens := 3 }
    let call : Call ℚ :=
      { pair with
        decoder := { pair.decoder with config }
        gen := { pair.gen with maxTokens := 3 } }
    let first := call.initial ⟨3, true, {}⟩ ⟨[], 0⟩ [0]
    call.decoder.construct = .ok ⟨3, true, {}⟩ ∧ FaultFree call ∧ LengthTypes call ∧
      call.checkPrompt [0] = .ok () ∧
      ∃ s, Loop.Visits call.step first s ∧ ¬ Within call.nCtx (call.targetOps s) s.targetKv ∧
        ¬ Within call.nCtx (call.draftOps s) s.draftState.kv := by
  intro pair config call first
  have hfree : FaultFree call := fun _ hbackend => by
    cases hbackend
    exact fun _ => rfl
  let second := stateAfter (call.step first)
  let third := stateAfter (call.step second)
  have hsecond : call.step first = .inl second := eq_inl_of_isLeft (by decide +kernel)
  have hthird : call.step second = .inl third := eq_inl_of_isLeft (by decide +kernel)
  have hkv : third.targetKv = [0, 0] ∧ third.draftState.kv = [0, 0] := by decide +kernel
  have htarget : call.targetOps third = [.append [0, 1, 1], .truncate 3] := by decide +kernel
  have hdraft : call.draftOps third = [.append [0], .append [1], .append [1], .truncate 3] := by
    decide +kernel
  refine ⟨by decide, hfree, ⟨by decide, by decide⟩, by decide, third,
    .next (.next .start hsecond) hthird, ?_, ?_⟩
  · rw [htarget, hkv.1]
    exact fun hwithin => absurd hwithin.2.1 (by decide)
  · rw [hdraft, hkv.2]
    exact fun hwithin => absurd hwithin.2.2.2.2.2.1 (by decide)

end Call

end Reame.Speculative
