import Reame.Speculative.DraftSources

/-!
# Acceptance sampling and batched verification

`verifyBatch` scores a whole draft with one batched forward of the target and
accepts its tokens one after another; at the first rejection the corrected token
is drawn from the residual distribution.

The loop only looks at the target through the distribution that follows an
accepted prefix, so `verifyLoop` takes that family of distributions as a
parameter and `verifyBatch` supplies the one the batch of logits defines.  The
file ends with the greedy case: against one-hot distributions the loop keeps the
longest prefix of the draft that greedy decoding would have produced, and corrects
the next token to the greedy one (`verifyLoop_greedy`).
-/

namespace Reame.Speculative

open Reame.Core

variable {K : Type*} [Field K] [LinearOrder K]

/-! ## The acceptance rule -/

/-- `accept_token`: `r * q < p`. -/
def acceptToken (targetProb draftProb r : K) : Bool := r * draftProb < targetProb

/-- `residual_distribution`: `max(p - q, 0)`, normalised; `p` itself when that
vanishes. -/
def residualDistribution (targetProbs draftProbs : List K) : List K :=
  let residual := targetProbs.mapIdx fun i p => max (p - draftProbs.getD i 0) 0
  if residual.sum ≤ 0 then targetProbs else residual.map (· / residual.sum)

/-- `draw_from`, the verifier's own multinomial draw. -/
def drawFrom (probs : List K) (rng : Rng K) : TokenId × Rng K :=
  let (r, rng) := rng.next
  (drawLoop 0 0 r probs, rng)

/-- `v[static_cast<std::size_t>(token)]`. -/
def index (values : List K) (token : TokenId) : Except Fault K :=
  if token < 0 then .error .outOfBounds
  else
    match values[token.toNat]? with
    | some value => .ok value
    | none => .error .outOfBounds

/-! ## Verification -/

/-- `VerificationResult`. -/
structure VerificationResult where
  acceptedTokens : List TokenId
  rejectedCount : ℕ
  correctedToken : Option TokenId
deriving DecidableEq

/-- The tokens a verification makes the decoder emit. -/
def VerificationResult.newTokens (result : VerificationResult) : List TokenId :=
  result.acceptedTokens ++ result.correctedToken.toList

/-- The loop of `verify_batch`.  `target accepted` is the target distribution after
the accepted prefix, the two lists are what is left of the draft. -/
def verifyLoop (target : List TokenId → Except Fault (List K)) :
    List TokenId → List (List K) → List TokenId → Rng K → Except Fault VerificationResult × Rng K
  | [], _, accepted, rng => (.ok ⟨accepted, 0, none⟩, rng)
  | _ :: _, [], _, rng => (.error .outOfBounds, rng)
  | d :: tokens, draftProbs :: probs, accepted, rng =>
      match target accepted with
      | .error fault => (.error fault, rng)
      | .ok targetProbs =>
          match index targetProbs d, index draftProbs d with
          | .ok p, .ok q =>
              let (r, rng) := rng.next
              if acceptToken p q r then verifyLoop target tokens probs (accepted ++ [d]) rng
              else
                let (corrected, rng) := drawFrom (residualDistribution targetProbs draftProbs) rng
                (.ok ⟨accepted, tokens.length + 1, some corrected⟩, rng)
          | .error fault, _ => (.error fault, rng)
          | _, .error fault => (.error fault, rng)

/-- The family of target distributions a batch of logits defines: `sampler.distribution`
at the position after the accepted prefix. -/
def batchTarget (lib : StdLib K) (sampler : Sampler K) (allLogits : List (List K))
    (recent accepted : List TokenId) : Except Fault (List K) :=
  match allLogits[accepted.length]? with
  | some logits => sampler.distribution lib logits (recent ++ accepted)
  | none => .error .outOfBounds

/-- `BatchVerifier::verify_batch`, with the target sequence after the batch. -/
def verifyBatch (lib : StdLib K) (backend : LlamaBackend K) (kv : List TokenId)
    (lastToken : TokenId) (draft : DraftResult K) (sampler : Sampler K) (rng : Rng K)
    (recent : List TokenId) : Except Fault VerificationResult × List TokenId × Rng K :=
  if draft.tokens = [] then
    (.error (.engineError "verify_batch called with an empty draft"), kv, rng)
  else
    let (kv, allLogits) := backend.decodeBatch kv (lastToken :: draft.tokens.dropLast)
    let (result, rng) :=
      verifyLoop (batchTarget lib sampler allLogits recent) draft.tokens draft.probs [] rng
    (result, kv, rng)

/-- A prefix that leaves something out is a prefix of everything but the last entry. -/
theorem prefix_dropLast {α : Type*} {w tokens : List α} (hw : w <+: tokens)
    (hlt : w.length < tokens.length) : w <+: tokens.dropLast := by
  obtain ⟨rest, rfl⟩ := hw
  have hrest : rest ≠ [] := by
    rintro rfl
    simp at hlt
  rw [List.dropLast_append_of_ne_nil hrest]
  exact List.prefix_append _ _

/-- At every proper prefix of the draft the batch holds the logits that decoding this
prefix token by token would give. -/
theorem batchTarget_eq (lib : StdLib K) (backend : LlamaBackend K) (sampler : Sampler K)
    {kv tokens recent w : List TokenId} {lastToken : TokenId} (hw : w <+: tokens)
    (hlt : w.length < tokens.length) :
    batchTarget lib sampler (backend.decodeBatch kv (lastToken :: tokens.dropLast)).2 recent w =
      sampler.distribution lib (backend.logits (kv ++ lastToken :: w)) (recent ++ w) := by
  have hpre := prefix_dropLast hw hlt
  have hlt' : w.length < (lastToken :: tokens.dropLast).length := by
    simpa using Nat.lt_succ_of_le hpre.length_le
  have hlogits := backend.decodeBatch_logits kv hlt'
  rw [List.take_succ_cons, ← List.prefix_iff_eq_take.mp hpre] at hlogits
  rw [batchTarget, hlogits]

/-! ## Greedy verification -/

omit [LinearOrder K] in
theorem index_oneHot {n i j : ℕ} (hi : i < n) (hj : j < n) :
    index (oneHot n i : List K) (j : ℤ) = .ok (if j = i then 1 else 0) := by
  have hlow : ¬ (j : ℤ) < 0 := by omega
  simp only [index, if_neg hlow, Int.toNat_natCast, getElem?_oneHot hi hj]

variable [IsStrictOrderedRing K]

omit [LinearOrder K] [IsStrictOrderedRing K] in
theorem sum_oneHot {n i : ℕ} (hi : i < n) : (oneHot n i : List K).sum = 1 := by
  rw [oneHot_eq_append hi]
  simp

omit [IsStrictOrderedRing K] in
/-- After a greedy rejection nothing of the target's one-hot is taken away by the
draft's. -/
theorem residual_oneHot {n m i j : ℕ} (hi : i < n) (hj : j < m) (hne : i ≠ j)
    [IsStrictOrderedRing K] :
    residualDistribution (oneHot n i) (oneHot m j) = (oneHot n i : List K) := by
  have hresidual : (oneHot n i : List K).mapIdx
      (fun k p => max (p - (oneHot m j : List K).getD k 0) 0) = oneHot n i := by
    apply List.ext_getElem?
    intro k
    rw [List.getElem?_mapIdx]
    rcases Nat.lt_or_ge k n with hk | hk
    · rw [getElem?_oneHot hi hk, Option.map_some, List.getD_eq_getElem?_getD]
      rcases Nat.lt_or_ge k m with hkm | hkm
      · rw [getElem?_oneHot hj hkm]
        by_cases hki : k = i
        · subst hki
          simp [hne]
        · by_cases hkj : k = j
          · subst hkj
            simp [hki]
          · simp [hki, hkj]
      · rw [List.getElem?_eq_none (by simpa using hkm)]
        by_cases hki : k = i <;> simp [hki]
    · rw [List.getElem?_eq_none (by simpa using hk), Option.map_none]
  unfold residualDistribution
  simp only [hresidual, sum_oneHot hi, not_le.mpr (zero_lt_one' K), if_false]
  simp

/-- `tokens` is what greedy decoding produces after `accepted`, one token after the
other. -/
def GreedyChain (greedy : List TokenId → ℕ) : List TokenId → List TokenId → Prop
  | _, [] => True
  | accepted, t :: rest => t = greedy accepted ∧ GreedyChain greedy (accepted ++ [t]) rest

/-- The draft distributions of a greedy draft: each is the one-hot at its token. -/
def OneHotDraft (n : ℕ) (tokens : List TokenId) (probs : List (List K)) : Prop :=
  List.Forall₂ (fun token q => ∃ i m : ℕ, i < n ∧ i < m ∧ token = (i : ℤ) ∧ q = oneHot m i)
    tokens probs

/-- Verification of a greedy draft by a greedy target: the emitted tokens continue the accepted
prefix as greedy decoding does. -/
theorem verifyLoop_greedy {n m : ℕ} {greedy : List TokenId → ℕ} (hgreedy : ∀ w, greedy w < n)
    {target : List TokenId → Except Fault (List K)} {tokens : List TokenId}
    {probs : List (List K)} {accepted : List TokenId} {rng rng' : Rng K}
    {result : VerificationResult}
    (htarget : ∀ w, w <+: accepted ++ tokens → w.length < (accepted ++ tokens).length →
      target w = .ok (oneHot n (greedy w)))
    (hdraft : OneHotDraft m tokens probs) (hrng : ∀ i, 0 ≤ rng.stream i ∧ rng.stream i < 1)
    (hloop : verifyLoop target tokens probs accepted rng = (.ok result, rng')) :
    ∃ new, result.newTokens = accepted ++ new ∧ GreedyChain greedy accepted new := by
  induction hdraft generalizing accepted rng with
  | nil =>
      cases hloop
      exact ⟨[], by simp [VerificationResult.newTokens], trivial⟩
  | @cons d q tokens probs hhead _ ih =>
      obtain ⟨i, size, -, hsize, rfl, rfl⟩ := hhead
      have hq : index (oneHot size i : List K) (i : ℤ) = .ok 1 := by
        rw [index_oneHot hsize hsize, if_pos rfl]
      have hhere := htarget accepted (List.prefix_append _ _) (by simp)
      obtain ⟨hr0, hr1⟩ := hrng rng.position
      rw [verifyLoop, hhere] at hloop
      by_cases hin : i < n
      · simp only [index_oneHot (K := K) (hgreedy accepted) hin, hq, Rng.next] at hloop
        by_cases hagree : i = greedy accepted
        · have haccept : acceptToken (1 : K) 1 (rng.stream rng.position) = true := by
            simpa [acceptToken] using hr1
          simp only [if_pos hagree, haccept, if_true] at hloop
          obtain ⟨new, hnew, hchain⟩ := @ih (accepted ++ [(i : ℤ)])
            { rng with position := rng.position + 1 } (by simpa [List.append_assoc] using htarget)
            hrng hloop
          refine ⟨(i : ℤ) :: new, ?_, by rw [← hagree], hchain⟩
          rw [hnew, List.append_assoc, List.singleton_append]
        · have hreject : acceptToken (0 : K) 1 (rng.stream rng.position) = false := by
            simpa [acceptToken] using hr0
          simp only [if_neg hagree, hreject, Bool.false_eq_true, if_false, drawFrom, Rng.next,
            residual_oneHot (hgreedy accepted) hsize (Ne.symm hagree),
            drawLoop_oneHot (hgreedy accepted) (hrng _).2] at hloop
          cases hloop
          exact ⟨[(greedy accepted : ℤ)], rfl, rfl, trivial⟩
      · -- A token the target does not have cannot be looked up.
        have hbad : index (oneHot n (greedy accepted) : List K) (i : ℤ) = .error .outOfBounds := by
          have hlong : (oneHot n (greedy accepted) : List K).length ≤ i := by
            rw [length_oneHot]
            exact not_lt.mp hin
          rw [index, if_neg (not_lt.mpr (Int.natCast_nonneg i)), Int.toNat_natCast,
            List.getElem?_eq_none hlong]
        simp only [hbad, hq] at hloop
        cases hloop

end Reame.Speculative
