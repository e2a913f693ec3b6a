import Reame.Foundation.UniformStreams
import Reame.Speculative.BatchVerifier

/-!
# Speculative sampling is exact

Drafting from one family of distributions and verifying against another emits tokens of
the second.  The families `q` and `p` are indexed by the accepted prefix; `draftFrom` is
the loop of `generate_draft` over `q`, and `verifyLoop` the one of `verify_batch` over
`p`.  Both consume streams of independent uniform draws.

For a fixed word `w` the event that `w` is drafted and accepted constrains each draw on
its own (`accepts_iff`), and the token emitted next depends on three further draws
(`emits_iff`): one for the draft, one for the test, one for the correction.  So the law of
the next token is computed from three uniform variates, and it is `p w`
(`accepted_add_corrected`): what acceptance leaves out, the residual puts back.
-/

namespace Reame.Speculative

open Reame.Core MeasureTheory

/-! ## Drafting from a family of distributions -/

section Families

variable {K : Type*} [Field K] [LinearOrder K]

/-- The loop of `generate_draft` over a family of distributions: the drafted tokens, each
with the distribution it was drawn from. -/
def draftFrom (q : List TokenId → List K) (eos : TokenId) :
    ℕ → List TokenId → Rng K → List (TokenId × List K)
  | 0, _, _ => []
  | n + 1, w, rng =>
      let (r, rng) := rng.next
      let token : TokenId := drawLoop 0 0 r (q w)
      (token, q w) :: if token = eos then [] else draftFrom q eos n (w ++ [token]) rng

/-- Draft after the prefix `w`, then verify against the family `p`. -/
def verifyDraft (p q : List TokenId → List K) (eos : TokenId) (n : ℕ) (w : List TokenId)
    (draftRng acceptRng : Rng K) : Except Fault VerificationResult :=
  let draft := draftFrom q eos n w draftRng
  (verifyLoop (fun w => .ok (p w)) (draft.map Prod.fst) (draft.map Prod.snd) w acceptRng).1

/-- The probability a vector gives to a token. -/
def prob (probs : List K) (token : TokenId) : K := if token < 0 then 0 else probs.getD token.toNat 0

/-- The token emitted after an accepted prefix: the draft, or the correction. -/
def nextToken (p q : List K) (u v v' : K) : ℕ :=
  let token := drawLoop 0 0 u q
  if acceptToken (p.getD token 0) (q.getD token 0) v then token
  else drawLoop 0 0 v' (residualDistribution p q)

omit [LinearOrder K] in
theorem index_natCast {values : List K} {i : ℕ} (hi : i < values.length) :
    index values (i : ℤ) = .ok (values.getD i 0) := by
  have hlow : ¬ (i : ℤ) < 0 := by omega
  rw [index, if_neg hlow, Int.toNat_natCast, List.getD_eq_getElem?_getD,
    List.getElem?_eq_getElem hi, Option.getD_some]

omit [LinearOrder K] in
@[simp] theorem prob_natCast (probs : List K) (i : ℕ) : prob probs (i : ℤ) = probs.getD i 0 := by
  have hlow : ¬ (i : ℤ) < 0 := by omega
  rw [prob, if_neg hlow, Int.toNat_natCast]

/-- One position of a draft: the test either passes the token on or corrects it. -/
theorem verifyDraft_succ {p q : List TokenId → List K} (eos : TokenId) (n : ℕ) {w : List TokenId}
    {draftRng : Rng K} (acceptRng : Rng K) {token : ℕ}
    (htoken : drawLoop 0 0 (draftRng.stream draftRng.position) (q w) = token)
    (hp : token < (p w).length) (hq : token < (q w).length) :
    (acceptToken ((p w).getD token 0) ((q w).getD token 0)
          (acceptRng.stream acceptRng.position) = true ∧
        verifyDraft p q eos (n + 1) w draftRng acceptRng =
          if (token : ℤ) = eos then .ok ⟨w ++ [(token : ℤ)], 0, none⟩
          else verifyDraft p q eos n (w ++ [(token : ℤ)]) draftRng.next.2 acceptRng.next.2) ∨
      (acceptToken ((p w).getD token 0) ((q w).getD token 0)
          (acceptRng.stream acceptRng.position) = false ∧
        ∃ rejected, verifyDraft p q eos (n + 1) w draftRng acceptRng = .ok ⟨w, rejected,
          some (drawLoop 0 0 (acceptRng.stream (acceptRng.position + 1))
            (residualDistribution (p w) (q w)) : ℕ)⟩) := by
  have hloop : verifyDraft p q eos (n + 1) w draftRng acceptRng =
      (if acceptToken ((p w).getD token 0) ((q w).getD token 0)
          (acceptRng.stream acceptRng.position) then
        verifyLoop (fun w => .ok (p w))
          ((if (token : ℤ) = eos then []
            else draftFrom q eos n (w ++ [(token : ℤ)]) draftRng.next.2).map Prod.fst)
          ((if (token : ℤ) = eos then []
            else draftFrom q eos n (w ++ [(token : ℤ)]) draftRng.next.2).map Prod.snd)
          (w ++ [(token : ℤ)]) acceptRng.next.2
      else
        (.ok ⟨w, ((if (token : ℤ) = eos then []
          else draftFrom q eos n (w ++ [(token : ℤ)]) draftRng.next.2).map Prod.fst).length + 1,
          some (drawLoop 0 0 (acceptRng.stream (acceptRng.position + 1))
            (residualDistribution (p w) (q w)) : ℕ)⟩, acceptRng.next.2.next.2)).1 := by
    simp only [verifyDraft, draftFrom, Rng.next, htoken, List.map_cons, verifyLoop,
      index_natCast hp, index_natCast hq, drawFrom]
    rfl
  cases haccept : acceptToken ((p w).getD token 0) ((q w).getD token 0)
      (acceptRng.stream acceptRng.position) with
  | true =>
      refine .inl ⟨rfl, ?_⟩
      rw [hloop, haccept, if_pos rfl]
      split
      · rfl
      · rfl
  | false =>
      refine .inr ⟨rfl, ?_⟩
      rw [hloop, haccept]
      exact ⟨_, rfl⟩

/-! ## The decoder's own families -/

/-- The distribution a model gives after a prefix of the draft. -/
def distributionAfter (lib : StdLib K) (config : GenerationConfig K) (backend : LlamaBackend K)
    (kv recent : List TokenId) (lastToken : TokenId) (w : List TokenId) : List K :=
  distributionOf lib config (backend.logits (kv ++ lastToken :: w)) (recent ++ w)

/-- A fault-free `generate_draft` drafts from the draft model's family. -/
theorem rolloutLoop_eq_draftFrom (lib : StdLib K) {backend : FaultyBackend K}
    (hfault : ∀ i, backend.fails i = false) (kv recent : List TokenId) (lastToken : TokenId)
    {config : GenerationConfig K} :
    ∀ (n : ℕ) (w : List TokenId) (cur : TokenId) (sampler : Sampler K) (draft : DraftState)
      (result : DraftResult K), sampler.config = config →
      draft.kv ++ [cur] = kv ++ lastToken :: w →
      (rolloutLoop lib backend n cur (recent ++ w) sampler draft result).result = .ok
        ⟨result.tokens ++ (draftFrom (distributionAfter lib config backend.toLlamaBackend kv recent
            lastToken) backend.eosToken n w sampler.rng).map Prod.fst,
          result.probs ++ (draftFrom (distributionAfter lib config backend.toLlamaBackend kv recent
            lastToken) backend.eosToken n w sampler.rng).map Prod.snd⟩ := by
  intro n
  induction n with
  | zero =>
      intro w cur sampler draft result _ _
      simp [rolloutLoop, draftFrom]
  | succ n ih =>
      intro w cur sampler draft result hconfig hkv
      have hlogits : backend.logits (kv ++ lastToken :: w) ≠ [] := backend.logits_ne_nil _
      have hcall : backend.decodeAppend draft [cur] =
          (.ok (backend.logits (kv ++ lastToken :: w)),
            ⟨kv ++ lastToken :: w, draft.calls + 1⟩) := by
        simp [FaultyBackend.decodeAppend, FaultyBackend.call, hfault, LlamaBackend.decodeAppend, hkv]
      have hdist : sampler.distribution lib (backend.logits (kv ++ lastToken :: w)) (recent ++ w) =
          .ok (distributionAfter lib config backend.toLlamaBackend kv recent lastToken w) := by
        rw [Sampler.distribution, if_neg hlogits, hconfig, distributionAfter]
      have hprobs : distributionAfter lib config backend.toLlamaBackend kv recent lastToken w ≠ [] := by
        rw [← List.length_pos_iff, distributionAfter, length_distributionOf]
        exact List.length_pos_iff.mpr hlogits
      obtain ⟨token, htoken⟩ : ∃ token : TokenId,
          (drawLoop 0 0 (sampler.rng.stream sampler.rng.position) (distributionAfter lib config
            backend.toLlamaBackend kv recent lastToken w) : ℕ) = token := ⟨_, rfl⟩
      have hrest := ih (w ++ [token]) token { sampler with rng := sampler.rng.next.2 }
        ⟨kv ++ lastToken :: w, draft.calls + 1⟩ ⟨result.tokens ++ [token], result.probs ++
          [distributionAfter lib config backend.toLlamaBackend kv recent lastToken w]⟩ hconfig
        (by simp)
      rw [← List.append_assoc] at hrest
      simp only [Rng.next] at hrest
      simp only [rolloutLoop, hcall, hdist, Sampler.draw, if_neg hprobs, draftFrom, Rng.next, htoken]
      by_cases heos : token = backend.eosToken
      · simp [heos]
      · simp only [if_neg heos]
        rw [hrest]
        simp

/-- Verification looks at the target after prefixes of the draft only. -/
theorem verifyLoop_congr {target target' : List TokenId → Except Fault (List K)}
    {tokens : List TokenId} {probs : List (List K)} {accepted : List TokenId} {rng : Rng K}
    (hsame : ∀ w, w <+: accepted ++ tokens → w.length < (accepted ++ tokens).length →
      target w = target' w) :
    verifyLoop target tokens probs accepted rng = verifyLoop target' tokens probs accepted rng := by
  induction tokens generalizing probs accepted rng with
  | nil => simp [verifyLoop]
  | cons d tokens ih =>
      cases probs with
      | nil => rfl
      | cons draftProbs probs =>
          rw [verifyLoop, verifyLoop, hsame accepted (List.prefix_append _ _) (by simp)]
          have hrest : ∀ rng, verifyLoop target tokens probs (accepted ++ [d]) rng =
              verifyLoop target' tokens probs (accepted ++ [d]) rng :=
            fun rng => ih (by simpa using hsame)
          simp only [hrest]

/-- `verify_batch` verifies against the target model's family. -/
theorem verifyBatch_eq {lib : StdLib K} {backend : LlamaBackend K} {kv recent : List TokenId}
    {lastToken : TokenId} {draft : DraftResult K} {sampler : Sampler K} {rng : Rng K}
    (hne : draft.tokens ≠ []) :
    (verifyBatch lib backend kv lastToken draft sampler rng recent).1 =
      (verifyLoop (fun w => .ok (distributionAfter lib sampler.config backend kv recent lastToken w))
        draft.tokens draft.probs [] rng).1 := by
  have hcongr : verifyLoop (batchTarget lib sampler
        (backend.decodeBatch kv (lastToken :: draft.tokens.dropLast)).2 recent)
        draft.tokens draft.probs [] rng =
      verifyLoop (fun w => .ok (distributionAfter lib sampler.config backend kv recent lastToken w))
        draft.tokens draft.probs [] rng := by
    refine verifyLoop_congr fun w hw hlt => ?_
    rw [List.nil_append] at hw hlt
    rw [batchTarget_eq lib backend sampler hw hlt, Sampler.distribution,
      if_neg (backend.logits_ne_nil _), distributionAfter]
  simp only [verifyBatch, if_neg hne, hcongr]

/-- Drafting with the draft model and verifying in one batch is drafting from the one
family and verifying against the other. -/
theorem verifyBatch_generateDraft {lib : StdLib K} {backend : FaultyBackend K}
    (hfault : ∀ i, backend.fails i = false) {target : LlamaBackend K} {kv recent : List TokenId}
    {lastToken : TokenId} {sampler : Sampler K} {rng : Rng K} {draftState : DraftState}
    {draftTokens nTokens : ℤ} (hpositive : 0 < if 0 < nTokens then nTokens else draftTokens) :
    ∃ draft, (generateDraft lib backend draftTokens lastToken recent sampler draftState
        nTokens).result = .ok draft ∧
      (verifyBatch lib target kv lastToken draft sampler rng recent).1 =
        verifyDraft (distributionAfter lib sampler.config target kv recent lastToken)
          (distributionAfter lib sampler.config backend.toLlamaBackend draftState.kv recent lastToken)
          backend.eosToken (if 0 < nTokens then nTokens else draftTokens).toNat [] sampler.rng
          rng := by
  have hdraft := rolloutLoop_eq_draftFrom lib hfault draftState.kv recent lastToken
    (if 0 < nTokens then nTokens else draftTokens).toNat [] lastToken sampler draftState {} rfl rfl
  rw [List.append_nil] at hdraft
  refine ⟨_, hdraft, ?_⟩
  obtain ⟨n, hn⟩ : ∃ n, (if 0 < nTokens then nTokens else draftTokens).toNat = n + 1 :=
    ⟨(if 0 < nTokens then nTokens else draftTokens).toNat - 1, by omega⟩
  rw [verifyBatch_eq (by rw [hn]; simp [draftFrom])]
  simp [verifyDraft]

end Families

/-! ## One uniform draw -/

/-- A probability vector. -/
structure IsDistribution (probs : List ℝ) : Prop where
  nonneg : ∀ p ∈ probs, 0 ≤ p
  sum_one : probs.sum = 1

theorem IsDistribution.getD_nonneg {probs : List ℝ} (hprobs : IsDistribution probs) (i : ℕ) :
    0 ≤ probs.getD i 0 := by
  rw [List.getD_eq_getElem?_getD]
  cases hi : probs[i]? with
  | none => exact le_rfl
  | some p => exact hprobs.nonneg p (List.mem_of_getElem? hi)

/-- A draw below the total mass returns an entry with positive probability. -/
theorem drawLoop_pos {probs : List ℝ} (hnonneg : ∀ p ∈ probs, 0 ≤ p) (hsum : 0 < probs.sum) {r : ℝ}
    (hr : r ≤ probs.sum) (last start : ℕ) :
    ∃ j, drawLoop last start r probs = start + j ∧ 0 < probs.getD j 0 := by
  induction probs generalizing r last start with
  | nil => simp at hsum
  | cons p rest ih =>
      have hp : 0 ≤ p := hnonneg p (List.mem_cons_self ..)
      have hrest : ∀ x ∈ rest, 0 ≤ x := fun x hx => hnonneg x (List.mem_cons_of_mem _ hx)
      rw [List.sum_cons] at hsum hr
      unfold drawLoop
      split
      · rename_i hzero
        obtain ⟨j, hdraw, hpos⟩ := ih hrest (by linarith) (r := r) (by linarith) last (start + 1)
        exact ⟨j + 1, by rw [hdraw]; omega, by simpa using hpos⟩
      · rename_i hpos
        split
        · exact ⟨0, rfl, by simpa using hpos⟩
        · rename_i hover
          obtain ⟨j, hdraw, hpos'⟩ := ih hrest (by linarith) (r := r - p) (by linarith) start
            (start + 1)
          exact ⟨j + 1, by rw [hdraw]; omega, by simpa using hpos'⟩

/-- A positive draw returns the entry whose cumulative interval it falls into. -/
theorem drawLoop_iff {probs : List ℝ} (hnonneg : ∀ p ∈ probs, 0 ≤ p) {r : ℝ} (hpos : 0 < r)
    (hr : r ≤ probs.sum) (last start j : ℕ) :
    drawLoop last start r probs = start + j ↔
      (probs.take j).sum < r ∧ r ≤ (probs.take (j + 1)).sum := by
  induction probs generalizing r last start j with
  | nil =>
      rw [List.sum_nil] at hr
      linarith
  | cons p rest ih =>
      have hp : 0 ≤ p := hnonneg p (List.mem_cons_self ..)
      have hrest : ∀ x ∈ rest, 0 ≤ x := fun x hx => hnonneg x (List.mem_cons_of_mem _ hx)
      rw [List.sum_cons] at hr
      -- Past the first entry, the draw cannot come back to it.
      have hlater : ∀ (last : ℕ) {r : ℝ}, 0 < r → r ≤ rest.sum →
          drawLoop last (start + 1) r rest ≠ start := by
        intro last r hpos hr heq
        obtain ⟨j, hdraw, -⟩ := drawLoop_pos hrest (hpos.trans_le hr) hr last (start + 1)
        omega
      unfold drawLoop
      split
      · rename_i hzero
        have hpzero : p = 0 := le_antisymm hzero hp
        cases j with
        | zero =>
            simp only [List.take_zero, List.sum_nil, Nat.zero_add, List.take_succ_cons,
              List.sum_cons, add_zero]
            exact ⟨fun h => absurd h (hlater last hpos (by linarith)), fun h => by linarith [h.2]⟩
        | succ j =>
            have hih := ih hrest hpos (by linarith) last (start + 1) j
            rw [show start + (j + 1) = start + 1 + j by omega, hih]
            simp [hpzero]
      · rename_i hppos
        split
        · rename_i hused
          cases j with
          | zero =>
              simp only [List.take_zero, List.sum_nil, Nat.zero_add,
                List.take_succ_cons, List.sum_cons, add_zero, true_iff]
              exact ⟨hpos, by linarith⟩
          | succ j =>
              have hnonneg' : 0 ≤ (rest.take j).sum :=
                List.sum_nonneg fun x hx => hrest x (List.mem_of_mem_take hx)
              simp only [List.take_succ_cons, List.sum_cons]
              exact ⟨fun h => by omega, fun h => by linarith [h.1]⟩
        · rename_i hover
          cases j with
          | zero =>
              simp only [List.take_zero, List.sum_nil, Nat.zero_add,
                List.take_succ_cons, List.sum_cons, add_zero]
              exact ⟨fun h => absurd h (hlater start (by linarith) (by linarith)),
                fun h => by linarith [h.2]⟩
          | succ j =>
              have hih := ih hrest (r := r - p) (by linarith) (by linarith) start (start + 1) j
              rw [show start + (j + 1) = start + 1 + j by omega, hih]
              simp only [List.take_succ_cons, List.sum_cons]
              exact ⟨fun h => ⟨by linarith [h.1], by linarith [h.2]⟩,
                fun h => ⟨by linarith [h.1], by linarith [h.2]⟩⟩

theorem measurable_drawLoop (probs : List ℝ) (last start : ℕ) :
    Measurable fun r => drawLoop last start r probs := by
  induction probs generalizing last start with
  | nil => exact measurable_const
  | cons p rest ih =>
      unfold drawLoop
      by_cases hzero : p ≤ 0
      · simp only [if_pos hzero]
        exact ih last (start + 1)
      · simp only [if_neg hzero]
        refine Measurable.ite ?_ measurable_const
          ((ih start (start + 1)).comp (measurable_id.sub_const p))
        exact measurableSet_le (measurable_id.sub_const p) measurable_const

/-- A uniform draw returns each entry with its probability. -/
theorem unitUniform_draw {probs : List ℝ} (hprobs : IsDistribution probs) (j : ℕ) :
    unitUniform {u | drawLoop 0 0 u probs = j} = ENNReal.ofReal (probs.getD j 0) := by
  have hcumulative : ∀ i, (probs.take i).sum ≤ 1 := by
    intro i
    have hsplit := List.sum_take_add_sum_drop probs i
    have hnonneg : 0 ≤ (probs.drop i).sum :=
      List.sum_nonneg fun p hp => hprobs.nonneg p (List.mem_of_mem_drop hp)
    rw [hprobs.sum_one] at hsplit
    linarith
  have hinterval : {u | drawLoop 0 0 u probs = j} =ᵐ[unitUniform]
      Set.Ioc (probs.take j).sum (probs.take (j + 1)).sum := by
    have hzero : ∀ᵐ u ∂unitUniform, u ≠ (0 : ℝ) := by
      rw [ae_iff]
      simp [unitUniform]
    filter_upwards [hzero, ae_restrict_mem measurableSet_Ico] with u hne hu
    refine propext ?_
    have hiff := drawLoop_iff hprobs.nonneg (lt_of_le_of_ne hu.1 (Ne.symm hne))
      (by rw [hprobs.sum_one]; exact hu.2.le) 0 0 j
    rw [Nat.zero_add] at hiff
    exact hiff
  have hstep : (probs.take (j + 1)).sum = (probs.take j).sum + probs.getD j 0 := by
    rw [List.take_add_one, List.sum_append, List.getD_eq_getElem?_getD]
    cases probs[j]? <;> simp
  rw [measure_congr hinterval, unitUniform_Ioc ?_ (hcumulative _), hstep, add_sub_cancel_left]
  exact List.sum_nonneg fun p hp => hprobs.nonneg p (List.mem_of_mem_take hp)

/-! ## Which draws a word needs -/

/-- At position `i` the draws produce the token of the word `v`, and accept it. -/
def AcceptedAt (p q : List TokenId → List ℝ) (w v : List TokenId) (draws tests : ℕ → ℝ)
    (i : ℕ) : Prop :=
  ((drawLoop 0 0 (draws i) (q (w ++ v.take i)) : ℕ) : ℤ) = v.getD i 0 ∧
    acceptToken (prob (p (w ++ v.take i)) (v.getD i 0)) (prob (q (w ++ v.take i)) (v.getD i 0))
      (tests i) = true

theorem acceptedAt_succ {p q : List TokenId → List ℝ} {w v : List TokenId} {t : TokenId}
    {draws tests : ℕ → ℝ} {i : ℕ} :
    AcceptedAt p q w (t :: v) draws tests (i + 1) ↔
      AcceptedAt p q (w ++ [t]) v (fun i => draws (i + 1)) (fun i => tests (i + 1)) i := by
  simp [AcceptedAt]

theorem acceptedAt_cons {p q : List TokenId → List ℝ} {w v : List TokenId} {t : TokenId}
    {draws tests : ℕ → ℝ} :
    (∀ i < (t :: v).length, AcceptedAt p q w (t :: v) draws tests i) ↔
      (((drawLoop 0 0 (draws 0) (q w) : ℕ) : ℤ) = t ∧
        acceptToken (prob (p w) t) (prob (q w) t) (tests 0) = true) ∧
      ∀ i < v.length,
        AcceptedAt p q (w ++ [t]) v (fun i => draws (i + 1)) (fun i => tests (i + 1)) i := by
  constructor
  · intro hall
    refine ⟨by simpa [AcceptedAt] using hall 0 (by simp), fun i hi => ?_⟩
    exact acceptedAt_succ.mp (hall (i + 1) (by simpa using hi))
  · rintro ⟨hfirst, hrest⟩ i hi
    cases i with
    | zero => simpa [AcceptedAt] using hfirst
    | succ i => exact acceptedAt_succ.mpr (hrest i (by simpa using hi))

section Events

variable {p q : List TokenId → List ℝ} {eos : TokenId} (hq : ∀ w, IsDistribution (q w))
  (hsupport : ∀ w i, 0 < (q w).getD i 0 → i < (p w).length)
include hq hsupport

/-- A drafted token is a token of both vectors. -/
theorem drawn_lt (w : List TokenId) {u : ℝ} (hu : u < 1) :
    drawLoop 0 0 u (q w) < (p w).length ∧ drawLoop 0 0 u (q w) < (q w).length := by
  obtain ⟨j, hdraw, hpos⟩ := drawLoop_pos (hq w).nonneg (by rw [(hq w).sum_one]; exact one_pos)
    (r := u) (by rw [(hq w).sum_one]; exact hu.le) 0 0
  rw [Nat.zero_add] at hdraw
  rw [hdraw]
  refine ⟨hsupport w j hpos, ?_⟩
  by_contra hlong
  rw [List.getD_eq_getElem?_getD, List.getElem?_eq_none (not_lt.mp hlong)] at hpos
  exact lt_irrefl _ hpos

/-- Verification answers, and keeps the prefix it was started with. -/
theorem verifyDraft_ok (eos : TokenId) (n : ℕ) (w : List TokenId) {draftRng : Rng ℝ}
    (acceptRng : Rng ℝ)    (hdraws : ∀ i, draftRng.stream i < 1) :
    ∃ result, verifyDraft p q eos n w draftRng acceptRng = .ok result ∧
      w <+: result.acceptedTokens := by
  induction n generalizing w draftRng acceptRng with
  | zero => exact ⟨⟨w, 0, none⟩, rfl, List.prefix_rfl⟩
  | succ n ih =>
      obtain ⟨hp, hq'⟩ := drawn_lt hq hsupport w (hdraws draftRng.position)
      rcases verifyDraft_succ eos n acceptRng rfl hp hq' with
        ⟨-, hverify⟩ | ⟨-, rejected, hverify⟩
      · rw [hverify]
        split
        · exact ⟨_, rfl, List.prefix_append _ _⟩
        · obtain ⟨result, hresult, hpre⟩ := @ih (w ++ [_]) draftRng.next.2
            acceptRng.next.2 hdraws
          exact ⟨result, hresult, (List.prefix_append _ _).trans hpre⟩
      · exact ⟨_, hverify, List.prefix_rfl⟩

/-- The event that a verification accepts a word as its first drafts. -/
def Accepts (result : Except Fault VerificationResult) (w : List TokenId) : Prop :=
  ∃ verified, result = .ok verified ∧ w <+: verified.acceptedTokens

/-- The event that it does and emits the token `x` next. -/
def Emits (result : Except Fault VerificationResult) (w : List TokenId) (x : TokenId) : Prop :=
  ∃ verified, result = .ok verified ∧ w <+: verified.acceptedTokens ∧
    verified.newTokens[w.length]? = some x

omit hq hsupport in
theorem emits_of_prefix {result : VerificationResult} {w : List TokenId} {t x : TokenId}
    (hpre : w ++ [t] <+: result.acceptedTokens) :
    Emits (.ok result) w x ↔ t = x := by
  have hw := (List.prefix_append w [t]).trans hpre
  have hnext : result.newTokens[w.length]? = some t := by
    obtain ⟨rest, hrest⟩ := hpre
    rw [VerificationResult.newTokens, ← hrest]
    simp
  constructor
  · rintro ⟨verified, hok, -, hx⟩
    cases hok
    rw [hnext] at hx
    exact Option.some.inj hx
  · rintro rfl
    exact ⟨result, rfl, hw, hnext⟩

omit hq hsupport in
theorem Accepts.of_prefix {result : Except Fault VerificationResult} {w v : List TokenId}
    (haccepts : Accepts result v) (hpre : w <+: v) : Accepts result w := by
  obtain ⟨verified, hok, hv⟩ := haccepts
  exact ⟨verified, hok, hpre.trans hv⟩

omit hq hsupport in
theorem Emits.accepts {result : Except Fault VerificationResult} {w : List TokenId} {x : TokenId}
    (hemits : Emits result w x) : Accepts result w := by
  obtain ⟨verified, hok, hw, -⟩ := hemits
  exact ⟨verified, hok, hw⟩

/-- The first draft: either it is the token `t` and is accepted, and verification goes on
behind it, or no word that begins with `t` is accepted. -/
theorem verifyDraft_first (n : ℕ) (w : List TokenId) {t : TokenId} (heos : t ≠ eos)
    {draftRng : Rng ℝ} (acceptRng : Rng ℝ) (hdraws : ∀ i, draftRng.stream i < 1) :
    ((((drawLoop 0 0 (draftRng.stream draftRng.position) (q w) : ℕ) : ℤ) = t ∧
          acceptToken (prob (p w) t) (prob (q w) t) (acceptRng.stream acceptRng.position) = true) ∧
        verifyDraft p q eos (n + 1) w draftRng acceptRng =
          verifyDraft p q eos n (w ++ [t]) draftRng.next.2 acceptRng.next.2) ∨
      (¬ (((drawLoop 0 0 (draftRng.stream draftRng.position) (q w) : ℕ) : ℤ) = t ∧
          acceptToken (prob (p w) t) (prob (q w) t) (acceptRng.stream acceptRng.position) = true) ∧
        ¬ Accepts (verifyDraft p q eos (n + 1) w draftRng acceptRng) (w ++ [t])) := by
  obtain ⟨hp, hq'⟩ := drawn_lt hq hsupport w (hdraws draftRng.position)
  rcases verifyDraft_succ eos n acceptRng rfl hp hq' with
    ⟨haccept, hverify⟩ | ⟨hreject, rejected, hverify⟩
  · by_cases htoken : ((drawLoop 0 0 (draftRng.stream draftRng.position) (q w) : ℕ) : ℤ) = t
    · rw [← prob_natCast, ← prob_natCast, htoken] at haccept
      rw [htoken, if_neg heos] at hverify
      exact .inl ⟨⟨htoken, haccept⟩, hverify⟩
    · refine .inr ⟨fun h => htoken h.1, ?_⟩
      rintro ⟨verified, hok, hpre⟩
      have hfirst : w ++ [((drawLoop 0 0 (draftRng.stream draftRng.position) (q w) : ℕ) : ℤ)]
          <+: verified.acceptedTokens := by
        rw [hverify] at hok
        split at hok
        · cases hok
          exact List.prefix_rfl
        · obtain ⟨result, hresult, hpre'⟩ := verifyDraft_ok hq hsupport eos n (w ++ [_])
            acceptRng.next.2 (show ∀ i, draftRng.next.2.stream i < 1 from hdraws)
          rw [hresult] at hok
          cases hok
          exact hpre'
      have hsame := (List.prefix_of_prefix_length_le hfirst hpre (by simp)).eq_of_length (by simp)
      exact htoken (by simpa using hsame)
  · refine .inr ⟨?_, ?_⟩
    · rintro ⟨htoken, haccept⟩
      rw [← htoken, prob_natCast, prob_natCast, hreject] at haccept
      cases haccept
    · rintro ⟨verified, hok, hpre⟩
      rw [hverify] at hok
      cases hok
      have := hpre.length_le
      simp at this

omit hq hsupport in
theorem shift_next (rng : Rng ℝ) :
    (fun i => rng.stream (rng.position + (i + 1))) =
      fun i => rng.next.2.stream (rng.next.2.position + i) := by
  funext i
  simp only [Rng.next]
  congr 1
  omega

/-- A word is accepted exactly when every position draws and accepts its token. -/
theorem accepts_iff (v : List TokenId) (n : ℕ) (w : List TokenId) {draftRng acceptRng : Rng ℝ}
    (hdraws : ∀ i, draftRng.stream i < 1) (hlength : v.length ≤ n) (heos : eos ∉ v) :
    Accepts (verifyDraft p q eos n w draftRng acceptRng) (w ++ v) ↔
      ∀ i < v.length, AcceptedAt p q w v (fun i => draftRng.stream (draftRng.position + i))
        (fun i => acceptRng.stream (acceptRng.position + i)) i := by
  induction v generalizing n w draftRng acceptRng with
  | nil =>
      obtain ⟨result, hresult, hpre⟩ := verifyDraft_ok hq hsupport eos n w acceptRng hdraws
      simp only [List.append_nil, List.length_nil, Nat.not_lt_zero, false_imp_iff, implies_true,
        iff_true]
      exact ⟨result, hresult, hpre⟩
  | cons t v ih =>
      obtain ⟨n, rfl⟩ : ∃ m, n = m + 1 := ⟨n - 1, by simp at hlength; omega⟩
      have hassoc : w ++ t :: v = w ++ [t] ++ v := by simp
      rw [acceptedAt_cons]
      simp only [Nat.add_zero, shift_next]
      rcases verifyDraft_first hq hsupport n w (List.ne_of_not_mem_cons heos).symm
        acceptRng hdraws with ⟨hfirst, hverify⟩ | ⟨hfirst, hnot⟩
      · have hih := @ih n (w ++ [t]) draftRng.next.2 acceptRng.next.2 hdraws
          (by simpa using hlength) fun h => heos (List.mem_cons_of_mem _ h)
        rw [hverify, hassoc, hih, and_iff_right hfirst]
      · refine ⟨fun haccepts => absurd (haccepts.of_prefix ?_) hnot, fun h => absurd h.1 hfirst⟩
        rw [hassoc]
        exact List.prefix_append _ _

/-- The token after an accepted word is decided by three further draws. -/
theorem emits_iff (v : List TokenId) (n : ℕ) (w : List TokenId) {draftRng acceptRng : Rng ℝ}
    (hdraws : ∀ i, draftRng.stream i < 1) (hlength : v.length < n) (heos : eos ∉ v)
    (x : TokenId) :
    Emits (verifyDraft p q eos n w draftRng acceptRng) (w ++ v) x ↔
      (∀ i < v.length, AcceptedAt p q w v (fun i => draftRng.stream (draftRng.position + i))
        (fun i => acceptRng.stream (acceptRng.position + i)) i) ∧
      ((nextToken (p (w ++ v)) (q (w ++ v)) (draftRng.stream (draftRng.position + v.length))
        (acceptRng.stream (acceptRng.position + v.length))
        (acceptRng.stream (acceptRng.position + v.length + 1)) : ℕ) : ℤ) = x := by
  induction v generalizing n w draftRng acceptRng with
  | nil =>
      obtain ⟨n, rfl⟩ : ∃ m, n = m + 1 := ⟨n - 1, by simp at hlength; omega⟩
      obtain ⟨hp, hq'⟩ := drawn_lt hq hsupport w (hdraws draftRng.position)
      simp only [List.append_nil, List.length_nil, Nat.not_lt_zero, false_imp_iff, implies_true,
        true_and, Nat.add_zero]
      rcases verifyDraft_succ eos n acceptRng rfl hp hq' with
        ⟨haccept, hverify⟩ | ⟨hreject, rejected, hverify⟩
      · rw [nextToken, haccept, if_pos rfl, hverify]
        split
        · exact emits_of_prefix List.prefix_rfl
        · obtain ⟨result, hresult, hpre⟩ := verifyDraft_ok hq hsupport eos n (w ++ [_])
            acceptRng.next.2 (show ∀ i, draftRng.next.2.stream i < 1 from hdraws)
          rw [hresult]
          exact emits_of_prefix hpre
      · rw [nextToken, hreject, hverify]
        constructor
        · rintro ⟨verified, hok, -, hx⟩
          cases hok
          simpa [VerificationResult.newTokens] using hx
        · intro hx
          exact ⟨_, rfl, List.prefix_rfl, by simpa [VerificationResult.newTokens] using hx⟩
  | cons t v ih =>
      obtain ⟨n, rfl⟩ : ∃ m, n = m + 1 := ⟨n - 1, by simp at hlength; omega⟩
      have hassoc : w ++ t :: v = w ++ [t] ++ v := by simp
      rw [acceptedAt_cons]
      simp only [Nat.add_zero, shift_next]
      rcases verifyDraft_first hq hsupport n w (List.ne_of_not_mem_cons heos).symm
        acceptRng hdraws with ⟨hfirst, hverify⟩ | ⟨hfirst, hnot⟩
      · have hih := @ih n (w ++ [t]) draftRng.next.2 acceptRng.next.2 hdraws
          (by simpa using hlength) fun h => heos (List.mem_cons_of_mem _ h)
        have hposition : ∀ (rng : Rng ℝ) (k : ℕ),
            rng.stream (rng.position + (k + 1)) = rng.next.2.stream (rng.next.2.position + k) :=
          fun rng k => congrFun (shift_next rng) k
        rw [hverify, hassoc, hih, and_iff_right hfirst, List.length_cons, hposition, hposition,
          Nat.add_assoc acceptRng.position, hposition, Nat.add_assoc]
      · refine ⟨fun hemits => absurd (hemits.accepts.of_prefix ?_) hnot, fun h => absurd h.1.1 hfirst⟩
        rw [hassoc]
        exact List.prefix_append _ _

end Events

/-! ## What acceptance leaves out, the residual puts back -/

theorem sum_eq_sum_range {values : List ℝ} {n : ℕ} (hn : values.length ≤ n) :
    values.sum = ∑ i ∈ Finset.range n, values.getD i 0 := by
  induction values generalizing n with
  | nil => simp
  | cons v rest ih =>
      obtain ⟨n, rfl⟩ : ∃ m, n = m + 1 := ⟨n - 1, by simp at hn; omega⟩
      rw [List.sum_cons, Finset.sum_range_succ', ih (by simpa using hn), add_comm]
      simp

theorem getD_mapIdx_residual {p q : List ℝ} (hq : ∀ i, 0 ≤ q.getD i 0) (i : ℕ) :
    (p.mapIdx fun i x => max (x - q.getD i 0) 0).getD i 0 = max (p.getD i 0 - q.getD i 0) 0 := by
  rw [List.getD_eq_getElem?_getD, List.getElem?_mapIdx, List.getD_eq_getElem?_getD (l := p)]
  cases p[i]? with
  | none => simpa using hq i
  | some x => rfl

/-- The mass the residual is normalised by is the mass acceptance rejects. -/
theorem residual_mass {p q : List ℝ} (hp : IsDistribution p) (hq : IsDistribution q) :
    (p.mapIdx fun i x => max (x - q.getD i 0) 0).sum =
      ∑ i ∈ Finset.range q.length, max (q.getD i 0 - p.getD i 0) 0 := by
  let n := max p.length q.length
  have hrejected : ∑ i ∈ Finset.range q.length, max (q.getD i 0 - p.getD i 0) 0 =
      ∑ i ∈ Finset.range n, max (q.getD i 0 - p.getD i 0) 0 := by
    refine Finset.sum_subset (Finset.range_mono (le_max_right _ _)) fun i _ hi => ?_
    have hlong : q.length ≤ i := by simpa using hi
    rw [List.getD_eq_getElem?_getD (l := q), List.getElem?_eq_none hlong, Option.getD_none, zero_sub]
    exact max_eq_right (neg_nonpos.mpr (hp.getD_nonneg i))
  have hresidual : (p.mapIdx fun i x => max (x - q.getD i 0) 0).sum =
      ∑ i ∈ Finset.range n, max (p.getD i 0 - q.getD i 0) 0 := by
    rw [sum_eq_sum_range (n := n) (by simp [n])]
    exact Finset.sum_congr rfl fun i _ => getD_mapIdx_residual hq.getD_nonneg i
  have hbalance : ∑ i ∈ Finset.range n, max (p.getD i 0 - q.getD i 0) 0 -
      ∑ i ∈ Finset.range n, max (q.getD i 0 - p.getD i 0) 0 = 0 := by
    have hpoint : ∀ x y : ℝ, max (x - y) 0 - max (y - x) 0 = x - y := by
      intro x y
      rcases le_total x y with h | h
      · rw [max_eq_right (by linarith), max_eq_left (by linarith)]
        ring
      · rw [max_eq_left (by linarith), max_eq_right (by linarith)]
        ring
    rw [← Finset.sum_sub_distrib]
    simp only [hpoint]
    rw [Finset.sum_sub_distrib, ← sum_eq_sum_range (le_max_left _ _),
      ← sum_eq_sum_range (le_max_right _ _), hp.sum_one, hq.sum_one, sub_self]
  rw [hresidual, hrejected]
  linarith

/-- The residual is a distribution, in its fallback branch too. -/
theorem isDistribution_residual {p q : List ℝ} (hp : IsDistribution p) :
    IsDistribution (residualDistribution p q) := by
  unfold residualDistribution
  dsimp only
  split
  · exact hp
  · rename_i hpos
    rw [not_le] at hpos
    refine ⟨?_, ?_⟩
    · intro x hx
      obtain ⟨y, hy, rfl⟩ := List.mem_map.mp hx
      obtain ⟨i, hi, rfl⟩ := List.mem_mapIdx.mp hy
      exact div_nonneg (le_max_right _ _) hpos.le
    · have hdiv : ∀ (l : List ℝ) (c : ℝ), (l.map (· / c)).sum = l.sum / c := by
        intro l c
        induction l with
        | nil => simp
        | cons x rest ih => rw [List.map_cons, List.sum_cons, List.sum_cons, ih, add_div]
      rw [hdiv, div_self hpos.ne']

/-- Draft and test, or draft, rejection and correction: together the target's
probability. -/
theorem accepted_add_corrected {p q : List ℝ} (hp : IsDistribution p) (hq : IsDistribution q)
    (x : ℕ) :
    q.getD x 0 * min 1 (p.getD x 0 / q.getD x 0) +
        ∑ d ∈ Finset.range q.length, q.getD d 0 * (1 - min 1 (p.getD d 0 / q.getD d 0)) *
          (residualDistribution p q).getD x 0 = p.getD x 0 := by
  have haccepted : ∀ d, q.getD d 0 * min 1 (p.getD d 0 / q.getD d 0) =
      min (q.getD d 0) (p.getD d 0) := by
    intro d
    rcases (hq.getD_nonneg d).eq_or_lt with hzero | hpos
    · rw [← hzero, zero_mul, min_eq_left (hp.getD_nonneg d)]
    · rw [mul_min_of_nonneg _ _ hpos.le, mul_one, mul_div_cancel₀ _ hpos.ne']
  have hrejected : ∀ d, q.getD d 0 * (1 - min 1 (p.getD d 0 / q.getD d 0)) =
      max (q.getD d 0 - p.getD d 0) 0 := by
    intro d
    rw [mul_sub, mul_one, haccepted, ← max_sub_sub_left, sub_self, max_comm]
  simp only [haccepted, hrejected, ← Finset.sum_mul, ← residual_mass hp hq]
  have hterm := getD_mapIdx_residual (p := p) hq.getD_nonneg x
  have hnonneg : ∀ y ∈ p.mapIdx fun i x => max (x - q.getD i 0) 0, 0 ≤ y := by
    intro y hy
    obtain ⟨i, hi, rfl⟩ := List.mem_mapIdx.mp hy
    exact le_max_right _ _
  unfold residualDistribution
  dsimp only
  split
  · -- The fallback: nothing is rejected, so the target is nowhere above the draft.
    rename_i hnone
    have hzero : (p.mapIdx fun i x => max (x - q.getD i 0) 0).sum = 0 :=
      le_antisymm hnone (List.sum_nonneg hnonneg)
    have hbelow : p.getD x 0 ≤ q.getD x 0 := by
      have hmax : max (p.getD x 0 - q.getD x 0) 0 = 0 := by
        rw [← hterm, List.getD_eq_getElem?_getD]
        cases hx : (p.mapIdx fun i x => max (x - q.getD i 0) 0)[x]? with
        | none => rfl
        | some y =>
            have hy := List.mem_of_getElem? hx
            exact le_antisymm ((List.single_le_sum hnonneg y hy).trans hnone) (hnonneg y hy)
      have := max_eq_right_iff.mp hmax
      linarith
    rw [hzero, zero_mul, add_zero, min_eq_right hbelow]
  · rename_i hpos
    rw [not_le] at hpos
    have hdivided : ((p.mapIdx fun i x => max (x - q.getD i 0) 0).map
        (· / (p.mapIdx fun i x => max (x - q.getD i 0) 0).sum)).getD x 0 =
        max (p.getD x 0 - q.getD x 0) 0 / (p.mapIdx fun i x => max (x - q.getD i 0) 0).sum := by
      rw [← hterm, List.getD_eq_getElem?_getD, List.getElem?_map, List.getD_eq_getElem?_getD]
      cases (p.mapIdx fun i x => max (x - q.getD i 0) 0)[x]? with
      | none => simp
      | some y => rfl
    rw [hdivided, mul_div_cancel₀ _ hpos.ne']
    rcases le_total (p.getD x 0) (q.getD x 0) with h | h
    · rw [min_eq_right h, max_eq_right (by linarith), add_zero]
    · rw [min_eq_left h, max_eq_left (by linarith)]
      ring

/-! ## The law of the emitted token -/

/-- The draws of two generators: `inl` for the sampler that drafts, `inr` for the
verifier. -/
abbrev Draws := ℕ ⊕ ℕ → ℝ

/-- The sampler's generator, at a position. -/
def draftRng (ω : Draws) (position : ℕ) : Rng ℝ := ⟨fun i => ω (.inl i), position⟩

/-- The verifier's generator, at a position. -/
def acceptRng (ω : Draws) (position : ℕ) : Rng ℝ := ⟨fun i => ω (.inr i), position⟩

theorem measurableSet_draw (probs : List ℝ) (t : TokenId) :
    MeasurableSet {u | ((drawLoop 0 0 u probs : ℕ) : ℤ) = t} :=
  measurableSet_eq_fun ((measurable_from_top (f := (Nat.cast : ℕ → ℤ))).comp
    (measurable_drawLoop probs 0 0)) measurable_const

theorem measurableSet_accept (p q : ℝ) : MeasurableSet {v | acceptToken p q v = true} := by
  simp only [acceptToken, decide_eq_true_eq]
  exact measurableSet_lt (measurable_id.mul_const q) measurable_const

/-- What each draw has to satisfy for the word `w` to be drafted and accepted. -/
def wordBox (p q : List TokenId → List ℝ) (w : List TokenId) (a b : ℕ) : ℕ ⊕ ℕ → Set ℝ
  | .inl m => {u | ((drawLoop 0 0 u (q (w.take (m - a))) : ℕ) : ℤ) = w.getD (m - a) 0}
  | .inr m => {v | acceptToken (prob (p (w.take (m - b))) (w.getD (m - b) 0))
      (prob (q (w.take (m - b))) (w.getD (m - b) 0)) v = true}

/-- The draws a word of length `k` uses. -/
def wordDraws (a b k : ℕ) : Finset (ℕ ⊕ ℕ) :=
  (Finset.range k).image (fun i => .inl (a + i)) ∪ (Finset.range k).image fun i => .inr (b + i)

theorem mem_wordBox_iff {p q : List TokenId → List ℝ} {w : List TokenId} {a b : ℕ} {ω : Draws} :
    ω ∈ Set.pi (wordDraws a b w.length : Set (ℕ ⊕ ℕ)) (wordBox p q w a b) ↔
      ∀ i < w.length, AcceptedAt p q [] w (fun i => ω (.inl (a + i))) (fun i => ω (.inr (b + i)))
        i := by
  simp only [Set.mem_pi, wordDraws, Finset.coe_union, Finset.coe_image, Finset.coe_range]
  constructor
  · intro hall i hi
    have hdraw := hall (.inl (a + i)) (.inl ⟨i, hi, rfl⟩)
    have htest := hall (.inr (b + i)) (.inr ⟨i, hi, rfl⟩)
    simp only [wordBox, Nat.add_sub_cancel_left] at hdraw htest
    exact ⟨hdraw, htest⟩
  · rintro hall _ (⟨i, hi, rfl⟩ | ⟨i, hi, rfl⟩)
    · simpa [wordBox] using (hall i hi).1
    · simpa [wordBox] using (hall i hi).2

theorem measurableSet_wordBox (p q : List TokenId → List ℝ) (w : List TokenId) (a b : ℕ)
    (i : ℕ ⊕ ℕ) : MeasurableSet (wordBox p q w a b i) := by
  cases i with
  | inl m => exact measurableSet_draw _ _
  | inr m => exact measurableSet_accept _ _

/-- The three draws that decide the next token, each with its constraint. -/
def nextBox (drawn tested corrected : Set ℝ) (m : ℕ) : ℕ ⊕ ℕ → Set ℝ
  | .inl _ => drawn
  | .inr i => if i = m then tested else corrected

def nextDraws (a b k : ℕ) : Finset (ℕ ⊕ ℕ) := {.inl (a + k), .inr (b + k), .inr (b + k + 1)}

theorem mem_nextBox_iff {drawn tested corrected : Set ℝ} {a b k : ℕ} {ω : Draws} :
    ω ∈ Set.pi (nextDraws a b k : Set (ℕ ⊕ ℕ)) (nextBox drawn tested corrected (b + k)) ↔
      ω (.inl (a + k)) ∈ drawn ∧ ω (.inr (b + k)) ∈ tested ∧
        ω (.inr (b + k + 1)) ∈ corrected := by
  simp [nextDraws, nextBox]

theorem measurableSet_nextBox {drawn tested corrected : Set ℝ} (hdrawn : MeasurableSet drawn)
    (htested : MeasurableSet tested) (hcorrected : MeasurableSet corrected) (m : ℕ)
    (i : ℕ ⊕ ℕ) : MeasurableSet (nextBox drawn tested corrected m i) := by
  cases i with
  | inl _ => exact hdrawn
  | inr i =>
      simp only [nextBox]
      split
      · exact htested
      · exact hcorrected

theorem disjoint_draws (a b k : ℕ) : Disjoint (wordDraws a b k) (nextDraws a b k) := by
  rw [Finset.disjoint_left]
  intro i hword hnext
  simp only [wordDraws, nextDraws, Finset.mem_union, Finset.mem_image, Finset.mem_range,
    Finset.mem_insert, Finset.mem_singleton] at hword hnext
  rcases hword with ⟨j, hj, rfl⟩ | ⟨j, hj, rfl⟩
  · simp at hnext
    omega
  · simp at hnext
    omega

theorem measure_nextBox {drawn tested corrected : Set ℝ} (hdrawn : MeasurableSet drawn)
    (htested : MeasurableSet tested) (hcorrected : MeasurableSet corrected) (a b k : ℕ) :
    uniformStreams (ℕ ⊕ ℕ) (Set.pi (nextDraws a b k) (nextBox drawn tested corrected (b + k))) =
      unitUniform drawn * (unitUniform tested * unitUniform corrected) := by
  rw [uniformStreams, Measure.infinitePi_pi _ fun i _ =>
    measurableSet_nextBox hdrawn htested hcorrected (b + k) i, nextDraws,
    Finset.prod_insert (by simp), Finset.prod_insert (by simp), Finset.prod_singleton]
  simp [nextBox]

theorem unitUniform_draw_int {probs : List ℝ} (hprobs : IsDistribution probs) (j : ℕ) :
    unitUniform {u | ((drawLoop 0 0 u probs : ℕ) : ℤ) = (j : ℤ)} =
      ENNReal.ofReal (probs.getD j 0) := by
  rw [← unitUniform_draw hprobs j]
  congr 1
  ext u
  exact Nat.cast_inj

/-- A token is drafted and passes the test, and it is drafted and fails. -/
theorem draw_mul_test {p q : List ℝ} (hp : IsDistribution p) (hq : IsDistribution q) (d : ℕ) :
    unitUniform {u | ((drawLoop 0 0 u q : ℕ) : ℤ) = (d : ℤ)} *
        unitUniform {v | acceptToken (p.getD d 0) (q.getD d 0) v = true} =
      ENNReal.ofReal (q.getD d 0 * min 1 (p.getD d 0 / q.getD d 0)) ∧
    unitUniform {u | ((drawLoop 0 0 u q : ℕ) : ℤ) = (d : ℤ)} *
        unitUniform {v | acceptToken (p.getD d 0) (q.getD d 0) v = true}ᶜ =
      ENNReal.ofReal (q.getD d 0 * (1 - min 1 (p.getD d 0 / q.getD d 0))) := by
  rw [unitUniform_draw_int hq]
  rcases (hq.getD_nonneg d).eq_or_lt with hzero | hpos
  · rw [← hzero, ENNReal.ofReal_zero, zero_mul, zero_mul, zero_mul, zero_mul, ENNReal.ofReal_zero]
    exact ⟨rfl, rfl⟩
  · have hset : {v | acceptToken (p.getD d 0) (q.getD d 0) v = true} =
        Set.Iio (p.getD d 0 / q.getD d 0) := by
      ext v
      simp only [acceptToken, decide_eq_true_eq, Set.mem_Iio, lt_div_iff₀ hpos]
      rfl
    rw [hset, Set.compl_Iio, unitUniform_Iio,
      unitUniform_Ici (div_nonneg (hp.getD_nonneg d) hpos.le), ENNReal.ofReal_mul hpos.le,
      ENNReal.ofReal_mul hpos.le]
    exact ⟨rfl, rfl⟩

/-- Which draws emit a given token after an accepted word: those that draft it and
accept it, and those that draft and reject some token and then draw it. -/
theorem nextToken_iff {p q : List ℝ} {u v v' : ℝ} (hu : drawLoop 0 0 u q < q.length) (x : ℕ) :
    nextToken p q u v v' = x ↔
      (((drawLoop 0 0 u q : ℕ) : ℤ) = (x : ℤ) ∧ acceptToken (p.getD x 0) (q.getD x 0) v = true) ∨
        ∃ d ∈ Finset.range q.length, ((drawLoop 0 0 u q : ℕ) : ℤ) = (d : ℤ) ∧
          ¬ acceptToken (p.getD d 0) (q.getD d 0) v = true ∧
          ((drawLoop 0 0 v' (residualDistribution p q) : ℕ) : ℤ) = (x : ℤ) := by
  simp only [Nat.cast_inj, Finset.mem_range]
  unfold nextToken
  dsimp only
  split
  · rename_i haccept
    constructor
    · rintro rfl
      exact .inl ⟨rfl, haccept⟩
    · rintro (⟨rfl, -⟩ | ⟨d, -, rfl, hreject, -⟩)
      · rfl
      · exact absurd haccept hreject
  · rename_i hreject
    constructor
    · rintro rfl
      exact .inr ⟨_, hu, rfl, hreject, rfl⟩
    · rintro (⟨rfl, haccept⟩ | ⟨d, -, -, -, hcorrected⟩)
      · exact absurd haccept hreject
      · exact hcorrected

/-- The draws that draft `x` and accept it. -/
def acceptedEvent (p q : List ℝ) (a b k x : ℕ) : Set Draws :=
  Set.pi (nextDraws a b k) (nextBox {u | ((drawLoop 0 0 u q : ℕ) : ℤ) = (x : ℤ)}
    {v | acceptToken (p.getD x 0) (q.getD x 0) v = true} Set.univ (b + k))

/-- The draws that draft `d`, reject it and correct it to `x`. -/
def correctedEvent (p q : List ℝ) (a b k x d : ℕ) : Set Draws :=
  Set.pi (nextDraws a b k) (nextBox {u | ((drawLoop 0 0 u q : ℕ) : ℤ) = (d : ℤ)}
    {v | acceptToken (p.getD d 0) (q.getD d 0) v = true}ᶜ
    {v | ((drawLoop 0 0 v (residualDistribution p q) : ℕ) : ℤ) = (x : ℤ)} (b + k))

section Law

variable {p q : List ℝ} (hp : IsDistribution p) (hq : IsDistribution q) (a b x : ℕ)
  (wp wq : List TokenId → List ℝ) (w : List TokenId)
include hp hq

/-- The word and the accepted draft are independent. -/
theorem measure_word_inter_accepted :
    uniformStreams (ℕ ⊕ ℕ) (Set.pi (wordDraws a b w.length) (wordBox wp wq w a b) ∩
        acceptedEvent p q a b w.length x) =
      uniformStreams (ℕ ⊕ ℕ) (Set.pi (wordDraws a b w.length) (wordBox wp wq w a b)) *
        ENNReal.ofReal (q.getD x 0 * min 1 (p.getD x 0 / q.getD x 0)) := by
  rw [acceptedEvent, measure_inter_boxes (disjoint_draws a b w.length)
    (measurableSet_wordBox wp wq w a b) (measurableSet_nextBox (measurableSet_draw _ _)
      (measurableSet_accept _ _) .univ _), measure_nextBox (measurableSet_draw _ _)
      (measurableSet_accept _ _) .univ, measure_univ, mul_one, (draw_mul_test hp hq x).1]

/-- The word and the corrected draft are independent. -/
theorem measure_word_inter_corrected (d : ℕ) :
    uniformStreams (ℕ ⊕ ℕ) (Set.pi (wordDraws a b w.length) (wordBox wp wq w a b) ∩
        correctedEvent p q a b w.length x d) =
      uniformStreams (ℕ ⊕ ℕ) (Set.pi (wordDraws a b w.length) (wordBox wp wq w a b)) *
        ENNReal.ofReal (q.getD d 0 * (1 - min 1 (p.getD d 0 / q.getD d 0)) *
          (residualDistribution p q).getD x 0) := by
  have hfail : 0 ≤ q.getD d 0 * (1 - min 1 (p.getD d 0 / q.getD d 0)) :=
    mul_nonneg (hq.getD_nonneg d) (sub_nonneg.mpr (min_le_left _ _))
  rw [correctedEvent, measure_inter_boxes (disjoint_draws a b w.length)
    (measurableSet_wordBox wp wq w a b) (measurableSet_nextBox (measurableSet_draw _ _)
      (measurableSet_accept _ _).compl (measurableSet_draw _ _) _),
    measure_nextBox (measurableSet_draw _ _) (measurableSet_accept _ _).compl
      (measurableSet_draw _ _), ← mul_assoc (unitUniform _), (draw_mul_test hp hq d).2,
    unitUniform_draw_int (isDistribution_residual hp), ← ENNReal.ofReal_mul hfail]

/-- The ways to emit `x` after the word exclude each other, and their probabilities add up
to the target's. -/
theorem measure_word_inter_next :
    uniformStreams (ℕ ⊕ ℕ)
        (Set.pi (wordDraws a b w.length) (wordBox wp wq w a b) ∩
            acceptedEvent p q a b w.length x ∪
          ⋃ d ∈ Finset.range q.length, Set.pi (wordDraws a b w.length) (wordBox wp wq w a b) ∩
            correctedEvent p q a b w.length x d) =
      uniformStreams (ℕ ⊕ ℕ) (Set.pi (wordDraws a b w.length) (wordBox wp wq w a b)) *
        ENNReal.ofReal (p.getD x 0) := by
  have hword : MeasurableSet (Set.pi (wordDraws a b w.length : Set (ℕ ⊕ ℕ)) (wordBox wp wq w a b)) :=
    .pi (Finset.countable_toSet _) fun i _ => measurableSet_wordBox wp wq w a b i
  have hcorrected : ∀ d, MeasurableSet (correctedEvent p q a b w.length x d) := fun d =>
    .pi (Finset.countable_toSet _) fun i _ => measurableSet_nextBox (measurableSet_draw _ _)
      (measurableSet_accept _ _).compl (measurableSet_draw _ _) _ i
  have hdisjoint : Disjoint
      (Set.pi (wordDraws a b w.length : Set (ℕ ⊕ ℕ)) (wordBox wp wq w a b) ∩
        acceptedEvent p q a b w.length x)
      (⋃ d ∈ Finset.range q.length, Set.pi (wordDraws a b w.length : Set (ℕ ⊕ ℕ))
        (wordBox wp wq w a b) ∩ correctedEvent p q a b w.length x d) := by
    rw [Set.disjoint_left]
    rintro ω ⟨-, haccepted⟩ hmem
    simp only [Set.mem_iUnion] at hmem
    obtain ⟨d, -, -, hrejected⟩ := hmem
    obtain ⟨hdrawn, htested, -⟩ := mem_nextBox_iff.mp haccepted
    obtain ⟨hdrawn', htested', -⟩ := mem_nextBox_iff.mp hrejected
    have hsame : (x : ℤ) = d := hdrawn.symm.trans hdrawn'
    rw [Nat.cast_inj.mp hsame] at htested
    exact htested' htested
  have hpairwise : Set.PairwiseDisjoint (Finset.range q.length : Set ℕ) fun d =>
      Set.pi (wordDraws a b w.length : Set (ℕ ⊕ ℕ)) (wordBox wp wq w a b) ∩
        correctedEvent p q a b w.length x d := by
    intro d _ d' _ hne
    rw [Function.onFun, Set.disjoint_left]
    rintro ω ⟨-, hmem⟩ ⟨-, hmem'⟩
    have hdrawn := (mem_nextBox_iff.mp hmem).1
    have hdrawn' := (mem_nextBox_iff.mp hmem').1
    exact hne (Nat.cast_inj.mp (hdrawn.symm.trans hdrawn' : (d : ℤ) = d'))
  have hfail : ∀ d, 0 ≤ q.getD d 0 * (1 - min 1 (p.getD d 0 / q.getD d 0)) *
      (residualDistribution p q).getD x 0 := fun d =>
    mul_nonneg (mul_nonneg (hq.getD_nonneg d) (sub_nonneg.mpr (min_le_left _ _)))
      ((isDistribution_residual hp).getD_nonneg x)
  have hpass : 0 ≤ q.getD x 0 * min 1 (p.getD x 0 / q.getD x 0) :=
    mul_nonneg (hq.getD_nonneg x)
      (le_min zero_le_one (div_nonneg (hp.getD_nonneg x) (hq.getD_nonneg x)))
  rw [measure_union hdisjoint (Finset.measurableSet_biUnion _ fun d _ => hword.inter (hcorrected d)),
    measure_biUnion_finset hpairwise fun d _ => hword.inter (hcorrected d),
    measure_word_inter_accepted hp hq]
  simp only [measure_word_inter_corrected hp hq]
  rw [← Finset.mul_sum, ← mul_add, ← ENNReal.ofReal_sum_of_nonneg fun d _ => hfail d,
    ← ENNReal.ofReal_add hpass (Finset.sum_nonneg fun d _ => hfail d), accepted_add_corrected hp hq]

end Law

/-- After an accepted word the next emitted token has the target's law: the probability
that `w` is drafted and accepted and `x` emitted next is the probability that `w` is
drafted and accepted, times the target's probability of `x` after `w`.  The generators
may stand at any position, the draft's vectors may be shorter or longer than the
target's, and the rejection branch may fall back to the target itself. -/
theorem speculation_exact {p q : List TokenId → List ℝ} (hp : ∀ w, IsDistribution (p w))
    (hq : ∀ w, IsDistribution (q w)) (hsupport : ∀ w i, 0 < (q w).getD i 0 → i < (p w).length)
    (eos : TokenId) {n : ℕ} {w : List TokenId} (hlength : w.length < n) (heos : eos ∉ w)
    (a b : ℕ) (x : TokenId) :
    uniformStreams (ℕ ⊕ ℕ)
        {ω | Emits (verifyDraft p q eos n [] (draftRng ω a) (acceptRng ω b)) w x} =
      uniformStreams (ℕ ⊕ ℕ)
          {ω | Accepts (verifyDraft p q eos n [] (draftRng ω a) (acceptRng ω b)) w} *
        ENNReal.ofReal (prob (p w) x) := by
  have hunit := ae_mem_unit (ι := ℕ ⊕ ℕ)
  let word : Set Draws := Set.pi (wordDraws a b w.length) (wordBox p q w a b)
  have haccepts : {ω | Accepts (verifyDraft p q eos n [] (draftRng ω a) (acceptRng ω b)) w}
      =ᵐ[uniformStreams (ℕ ⊕ ℕ)] word := by
    filter_upwards [hunit] with ω hω
    refine propext (Iff.trans ?_ mem_wordBox_iff.symm)
    exact accepts_iff hq hsupport w n [] (fun i => (hω (.inl i)).2) hlength.le heos
  have hemits : ∀ᵐ ω ∂uniformStreams (ℕ ⊕ ℕ),
      (Emits (verifyDraft p q eos n [] (draftRng ω a) (acceptRng ω b)) w x ↔ ω ∈ word ∧
        ((nextToken (p w) (q w) (ω (.inl (a + w.length))) (ω (.inr (b + w.length)))
          (ω (.inr (b + w.length + 1))) : ℕ) : ℤ) = x) := by
    filter_upwards [hunit] with ω hω
    rw [mem_wordBox_iff]
    exact emits_iff hq hsupport w n [] (fun i => (hω (.inl i)).2) hlength heos x
  rw [measure_congr haccepts]
  rcases lt_or_ge x 0 with hneg | hpos
  · -- Negative ids are never emitted.
    rw [prob, if_pos hneg, ENNReal.ofReal_zero, mul_zero, measure_eq_zero_iff_ae_notMem]
    filter_upwards [hemits] with ω hω hmem
    have hx := (hω.mp hmem).2
    exact absurd (hx ▸ Int.natCast_nonneg _) (not_le.mpr hneg)
  · lift x to ℕ using hpos
    rw [prob_natCast, ← measure_word_inter_next (hp w) (hq w) a b x p q w]
    refine measure_congr ?_
    filter_upwards [hemits, hunit] with ω hω hmem
    have hdrawn := (drawn_lt hq hsupport w (hmem (.inl (a + w.length))).2).2
    refine propext (hω.trans ?_)
    rw [Nat.cast_inj, nextToken_iff hdrawn]
    change _ ↔ (ω ∈ word ∩ acceptedEvent (p w) (q w) a b w.length x ∪
      ⋃ d ∈ Finset.range (q w).length, word ∩ correctedEvent (p w) (q w) a b w.length x d)
    simp only [Set.mem_union, Set.mem_inter_iff, Set.mem_iUnion, acceptedEvent, correctedEvent,
      mem_nextBox_iff, Set.mem_univ, and_true, exists_prop]
    constructor
    · rintro ⟨hword, h | ⟨d, hd, h⟩⟩
      · exact .inl ⟨hword, h⟩
      · exact .inr ⟨d, hd, hword, h⟩
    · rintro (⟨hword, h⟩ | ⟨d, hd, hword, h⟩)
      · exact ⟨hword, .inl h⟩
      · exact ⟨hword, .inr ⟨d, hd, h⟩⟩

/-- A target over two tokens and a draft vector that only knows the first. -/
theorem speculation_exact_short_draft :
    uniformStreams (ℕ ⊕ ℕ) {ω | Emits (verifyDraft (fun _ => [1 / 2, 1 / 2]) (fun _ => [1]) 7 2 []
        (draftRng ω 0) (acceptRng ω 0)) [0] 1} =
      uniformStreams (ℕ ⊕ ℕ) {ω | Accepts (verifyDraft (fun _ => [1 / 2, 1 / 2]) (fun _ => [1]) 7 2
        [] (draftRng ω 0) (acceptRng ω 0)) [0]} * ENNReal.ofReal (1 / 2) := by
  refine speculation_exact (p := fun _ => [1 / 2, 1 / 2]) (q := fun _ => [1])
    (fun _ => ⟨by norm_num, by norm_num⟩) (fun _ => ⟨by norm_num, by norm_num⟩) ?_ 7 (by decide)
    (by decide) 0 0 1
  rintro - (_ | i) hpos
  · norm_num
  · simp at hpos

end Reame.Speculative
