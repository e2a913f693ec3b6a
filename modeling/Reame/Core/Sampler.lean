import Reame.Core.Backend

/-!
# The token sampler

`Sampler` turns logits into a distribution and a distribution into a token:
repeat penalty, then either the greedy one-hot at the argmax or temperature,
softmax and the top-p nucleus, then a draw driven by the sampler's own generator.

Three parts of the C++ standard library are visible here and collected in
`StdLib`: `std::exp`, the pair `std::nth_element` / `std::sort`, and the uniform
variates produced from a seeded `std::mt19937`.  Their documented behaviour is
part of the structure, so that nothing outside it can be used.

The second half of the file settles the greedy case, `temperature <= 0`: the
distribution is a one-hot (`distribution_greedy`), a draw from a one-hot returns
its peak whatever the variate (`drawLoop_oneHot`), and `sample` is the argmax.
-/

namespace Reame.Core

/-- The standard library functions the sampler calls. -/
structure StdLib (K : Type*) [Field K] [LinearOrder K] where
  /-- `std::exp`. -/
  exp : K → K
  /-- `std::nth_element(first, first + k, last)` with the order by decreasing key. -/
  nthElement : (ℕ → K) → ℕ → List ℕ → List ℕ
  /-- `std::sort` with the order by decreasing key. -/
  sort : (ℕ → K) → List ℕ → List ℕ
  /-- The variates of `uniform_real_distribution(0, 1)` over `mt19937(seed)`. -/
  mt19937 : ℕ → ℕ → K
  exp_pos : ∀ x, 0 < exp x
  nthElement_perm : ∀ key k order, (nthElement key k order).Perm order
  nthElement_split : ∀ key k order, ∀ a ∈ (nthElement key k order).take k,
    ∀ b ∈ (nthElement key k order).drop k, key b ≤ key a
  sort_perm : ∀ key order, (sort key order).Perm order
  sort_sorted : ∀ key order, (sort key order).Pairwise fun a b => key b ≤ key a
  mt19937_mem : ∀ seed i, 0 ≤ mt19937 seed i ∧ mt19937 seed i < 1

/-- A library over the rationals, to evaluate the model with: `exp` is replaced by a
positive rational function, both orderings by a merge sort, and all variates are one
half. -/
def StdLib.rational : StdLib ℚ where
  exp x := if 0 ≤ x then 1 + x else 1 / (1 - x)
  nthElement key _ order := order.mergeSort fun a b => key b ≤ key a
  sort key order := order.mergeSort fun a b => key b ≤ key a
  mt19937 _ _ := 1 / 2
  exp_pos x := by
    split
    · linarith
    · exact div_pos one_pos (by linarith)
  nthElement_perm _ _ order := order.mergeSort_perm _
  nthElement_split key k order a ha b hb := by
    have hsorted : (order.mergeSort fun a b => key b ≤ key a).Pairwise
        fun a b => decide (key b ≤ key a) = true := List.pairwise_mergeSort
      (fun a b c hab hbc => by simpa using le_trans (by simpa using hbc) (by simpa using hab))
      (fun a b => by simpa using le_total (key b) (key a)) order
    rw [← List.take_append_drop k (order.mergeSort _), List.pairwise_append] at hsorted
    simpa using hsorted.2.2 a ha b hb
  sort_perm _ order := order.mergeSort_perm _
  sort_sorted key order := by
    have hsorted : (order.mergeSort fun a b => key b ≤ key a).Pairwise
        fun a b => decide (key b ≤ key a) = true := List.pairwise_mergeSort
      (fun a b c hab hbc => by simpa using le_trans (by simpa using hbc) (by simpa using hab))
      (fun a b => by simpa using le_total (key b) (key a)) order
    exact hsorted.imp (by simp)
  mt19937_mem _ _ := by norm_num

/-- A generator: its variates and the number already consumed. -/
structure Rng (K : Type*) where
  stream : ℕ → K
  position : ℕ := 0

/-- One variate, and the generator after it. -/
def Rng.next {K : Type*} (rng : Rng K) : K × Rng K :=
  (rng.stream rng.position, { rng with position := rng.position + 1 })

/-- `static_cast<std::mt19937::result_type>(seed)`. -/
def seedWord (seed : ℤ) : ℕ := (seed % 2 ^ 32).toNat

variable {K : Type*} [Field K] [LinearOrder K]

/-! ## Repeat penalty and argmax -/

/-- One token of the penalty window. -/
def penalizeToken (penalty : K) (logits : List K) (token : TokenId) : List K :=
  if token < 0 ∨ logits.length ≤ token.toNat then logits
  else logits.modify token.toNat fun logit => if 0 < logit then logit / penalty else logit * penalty

/-- Step 1 of `Sampler::distribution`: the repeat penalty over the last
`repeat_last_n` tokens. -/
def penalize (config : GenerationConfig K) (logits : List K) (recent : List TokenId) : List K :=
  if config.repeatPenalty ≠ 1 ∧ 0 < config.repeatLastN then
    let window := min recent.length config.repeatLastN.toNat
    (recent.drop (recent.length - window)).foldl (penalizeToken config.repeatPenalty) logits
  else logits

/-- The scan of `std::max_element` after its first element. -/
def maxElementFrom (best : ℕ) (largest : K) : ℕ → List K → ℕ
  | _, [] => best
  | i, x :: rest =>
      if largest < x then maxElementFrom i x (i + 1) rest
      else maxElementFrom best largest (i + 1) rest

/-- `std::max_element`, as an index: the first of the largest entries. -/
def maxElement : List K → ℕ
  | [] => 0
  | x :: rest => maxElementFrom 0 x 1 rest

/-- A vector of `n` zeros with a one at `i`. -/
def oneHot (n i : ℕ) : List K := (List.replicate n 0).set i 1

/-! ## Temperature, softmax, nucleus -/

/-- Step 3 of `Sampler::distribution`. -/
def softmax (lib : StdLib K) (temperature : K) (logits : List K) : List K :=
  let maxLogit := logits.getD (maxElement logits) 0
  let weights := logits.map fun logit => lib.exp ((logit - maxLogit) / temperature)
  weights.map (· / weights.sum)

/-- The inner loop of the nucleus: how many entries of the sorted prefix are kept,
and their mass. -/
def keepWhile (topP : K) : K → List K → ℕ × K
  | cumulative, [] => (0, cumulative)
  | cumulative, p :: rest =>
      if topP ≤ cumulative + p then (1, cumulative + p)
      else
        let kept := keepWhile topP (cumulative + p) rest
        (kept.1 + 1, kept.2)

omit [Field K] [LinearOrder K] in
/-- Four times as many entries, or all there are. -/
theorem widened_mem {probs : List K} (k : {k : ℕ // 0 < k ∧ k ≤ probs.length}) :
    0 < min (k.1 * 4) probs.length ∧ min (k.1 * 4) probs.length ≤ probs.length := by
  have := k.2
  omega

/-- The widening loop of the nucleus: select the `k` most probable entries, sort
them, and retry with four times as many while their mass stays below `top_p`.
Returns the arrangement, the number of kept entries and their mass. -/
def widen (lib : StdLib K) (probs : List K) (topP : K) (order : List ℕ)
    (k : {k : ℕ // 0 < k ∧ k ≤ probs.length}) : List ℕ × ℕ × K :=
  let key := fun i => probs.getD i 0
  let selected := if k.1 < probs.length then lib.nthElement key k order else order
  let arranged := lib.sort key (selected.take k) ++ selected.drop k
  let kept := keepWhile topP 0 ((arranged.take k).map key)
  if h : topP ≤ kept.2 ∨ k.1 = probs.length then (arranged, kept)
  else widen lib probs topP arranged
    ⟨min (k.1 * 4) probs.length, widened_mem k⟩
termination_by probs.length - k.1
decreasing_by
  have := k.2
  omega

/-- Step 4 of `Sampler::distribution`: zero the tail, renormalise the nucleus. -/
def nucleus (lib : StdLib K) (topP : K) (probs : List K) : List K :=
  if h : topP < 1 ∧ 0 < probs.length then
    let (order, keep, cumulative) := widen lib probs topP (List.range probs.length)
      ⟨min 512 probs.length, by omega⟩
    let zeroed := (order.drop keep).foldl (fun ps i => ps.set i 0) probs
    (order.take keep).foldl (fun ps i => ps.modify i (· / cumulative)) zeroed
  else probs

/-- The body of `Sampler::distribution`. -/
def distributionOf (lib : StdLib K) (config : GenerationConfig K) (logits : List K)
    (recent : List TokenId) : List K :=
  let penalized := penalize config logits recent
  if config.temperature ≤ 0 then oneHot penalized.length (maxElement penalized)
  else
    nucleus lib (min (max config.topP 0) 1) (softmax lib config.temperature penalized)

/-! ## The sampler -/

/-- `reame::core::Sampler`. -/
structure Sampler (K : Type*) where
  config : GenerationConfig K
  rng : Rng K

/-- The constructor seeds the generator. -/
def Sampler.new (lib : StdLib K) (config : GenerationConfig K) : Sampler K :=
  ⟨config, ⟨lib.mt19937 (seedWord config.seed), 0⟩⟩

/-- `Sampler::distribution`. -/
def Sampler.distribution (lib : StdLib K) (sampler : Sampler K) (logits : List K)
    (recent : List TokenId) : Except Fault (List K) :=
  if logits = [] then .error (.engineError "cannot sample from empty logits")
  else .ok (distributionOf lib sampler.config logits recent)

/-- The loop shared by `Sampler::draw` and the verifier's `draw_from`: subtract the
probabilities from the variate until it is used up. -/
def drawLoop (lastNonzero : ℕ) : ℕ → K → List K → ℕ
  | _, _, [] => lastNonzero
  | i, r, p :: rest =>
      if p ≤ 0 then drawLoop lastNonzero (i + 1) r rest
      else if r - p ≤ 0 then i
      else drawLoop i (i + 1) (r - p) rest

/-- `Sampler::draw`. -/
def Sampler.draw (sampler : Sampler K) (probs : List K) : Except Fault TokenId × Sampler K :=
  if probs = [] then (.error (.engineError "cannot draw from an empty distribution"), sampler)
  else
    let (r, rng) := sampler.rng.next
    (.ok (drawLoop 0 0 r probs), { sampler with rng })

/-- `Sampler::sample`: greedy decoding leaves the generator alone. -/
def Sampler.sample (lib : StdLib K) (sampler : Sampler K) (logits : List K)
    (recent : List TokenId) : Except Fault TokenId × Sampler K :=
  match sampler.distribution lib logits recent with
  | .error fault => (.error fault, sampler)
  | .ok probs =>
      if sampler.config.temperature ≤ 0 then (.ok (maxElement probs), sampler)
      else sampler.draw probs

/-! ## Greedy decoding -/

/-- The token greedy decoding picks. -/
def greedyToken (config : GenerationConfig K) (logits : List K) (recent : List TokenId) : ℕ :=
  maxElement (penalize config logits recent)

@[simp] theorem length_penalizeToken (penalty : K) (logits : List K) (token : TokenId) :
    (penalizeToken penalty logits token).length = logits.length := by
  unfold penalizeToken
  split <;> simp

@[simp] theorem length_penalize (config : GenerationConfig K) (logits : List K)
    (recent : List TokenId) : (penalize config logits recent).length = logits.length := by
  have hfold : ∀ (window : List TokenId) (current : List K),
      (window.foldl (penalizeToken config.repeatPenalty) current).length = current.length := by
    intro window
    induction window with
    | nil => intro current; rfl
    | cons token rest ih => intro current; rw [List.foldl_cons, ih, length_penalizeToken]
  unfold penalize
  split
  · exact hfold _ _
  · rfl

theorem length_nucleus (lib : StdLib K) (topP : K) (probs : List K) :
    (nucleus lib topP probs).length = probs.length := by
  have hset : ∀ (order : List ℕ) (ps : List K),
      (order.foldl (fun ps i => ps.set i 0) ps).length = ps.length := by
    intro order
    induction order with
    | nil => intro ps; rfl
    | cons i rest ih => intro ps; rw [List.foldl_cons, ih, List.length_set]
  have hmodify : ∀ (order : List ℕ) (mass : K) (ps : List K),
      (order.foldl (fun ps i => ps.modify i (· / mass)) ps).length = ps.length := by
    intro order mass
    induction order with
    | nil => intro ps; rfl
    | cons i rest ih => intro ps; rw [List.foldl_cons, ih, List.length_modify]
  unfold nucleus
  split
  · simp only [hmodify, hset]
  · rfl

/-- A distribution has one entry for each logit. -/
theorem length_distributionOf (lib : StdLib K) (config : GenerationConfig K) (logits : List K)
    (recent : List TokenId) : (distributionOf lib config logits recent).length = logits.length := by
  unfold distributionOf
  dsimp only
  split
  · simp [oneHot]
  · simp [length_nucleus, softmax]

/-- Sampling from logits that are there does not fail. -/
theorem sample_ok (lib : StdLib K) (sampler : Sampler K) {logits : List K} (hne : logits ≠ [])
    (recent : List TokenId) :
    ∃ token sampler', sampler.sample lib logits recent = (.ok token, sampler') := by
  have hprobs : distributionOf lib sampler.config logits recent ≠ [] := by
    rw [← List.length_pos_iff, length_distributionOf]
    exact List.length_pos_iff.mpr hne
  rw [Sampler.sample, Sampler.distribution, if_neg hne]
  dsimp only
  split
  · exact ⟨_, _, rfl⟩
  · rw [Sampler.draw, if_neg hprobs]
    exact ⟨_, _, rfl⟩

omit [Field K] in
theorem maxElementFrom_lt {best i : ℕ} (largest : K) (rest : List K) (hbest : best < i) :
    maxElementFrom best largest i rest < i + rest.length := by
  induction rest generalizing best largest i with
  | nil => simpa [maxElementFrom] using hbest
  | cons x rest ih =>
      simp only [maxElementFrom, List.length_cons]
      split
      · have := ih x (i.lt_add_one)
        omega
      · have := ih largest (Nat.lt_add_right 1 hbest)
        omega

omit [Field K] in
theorem maxElement_lt {values : List K} (hne : values ≠ []) :
    maxElement values < values.length := by
  cases values with
  | nil => exact absurd rfl hne
  | cons x rest =>
      have := maxElementFrom_lt x rest Nat.zero_lt_one
      simpa [maxElement, Nat.add_comm] using this

theorem greedyToken_lt (config : GenerationConfig K) {logits : List K} (recent : List TokenId)
    (hne : logits ≠ []) : greedyToken config logits recent < logits.length := by
  have hpenalized : penalize config logits recent ≠ [] := by
    intro hnil
    have hlength := length_penalize config logits recent
    rw [hnil] at hlength
    exact hne (List.length_eq_zero_iff.mp hlength.symm)
  simpa [greedyToken] using maxElement_lt hpenalized

omit [LinearOrder K] in
@[simp] theorem length_oneHot (n i : ℕ) : (oneHot n i : List K).length = n := by
  simp [oneHot]

omit [LinearOrder K] in
theorem getElem?_oneHot {n i j : ℕ} (hi : i < n) (hj : j < n) :
    (oneHot n i : List K)[j]? = some (if j = i then 1 else 0) := by
  unfold oneHot
  by_cases hji : j = i
  · subst hji
    simp [hi]
  · rw [List.getElem?_set_ne (Ne.symm hji), List.getElem?_replicate, if_pos hj, if_neg hji]

omit [LinearOrder K] in
/-- A one-hot is a run of zeros, the one, and another run of zeros. -/
theorem oneHot_eq_append {n i : ℕ} (hi : i < n) :
    (oneHot n i : List K) = List.replicate i 0 ++ 1 :: List.replicate (n - i - 1) 0 := by
  apply List.ext_getElem?
  intro j
  rcases Nat.lt_or_ge j n with hj | hj
  · rw [getElem?_oneHot hi hj]
    rcases Nat.lt_trichotomy j i with hlt | rfl | hgt
    · simp [List.getElem?_append, hlt, hlt.ne]
    · simp
    · obtain ⟨d, rfl⟩ : ∃ d, j = i + 1 + d := ⟨j - i - 1, by omega⟩
      have hnot : ¬ i + 1 + d < i := by omega
      have hne : i + 1 + d ≠ i := by omega
      have hsub : i + 1 + d - i = d + 1 := by omega
      have hd : d < n - i - 1 := by omega
      simp [List.getElem?_append, hnot, hne, hsub, hd]
  · rw [List.getElem?_eq_none (by simpa using hj), List.getElem?_eq_none (by simp; omega)]

variable [IsStrictOrderedRing K]

omit [IsStrictOrderedRing K] in
theorem maxElementFrom_replicate_zero (best i n : ℕ) {largest : K} (hlargest : 0 ≤ largest) :
    maxElementFrom best largest i (List.replicate n 0) = best := by
  induction n generalizing i with
  | zero => rfl
  | succ n ih =>
      rw [List.replicate_succ, maxElementFrom, if_neg (not_lt.mpr hlargest)]
      exact ih (i + 1)

/-- The argmax of a one-hot is its peak. -/
theorem maxElement_oneHot {n i : ℕ} (hi : i < n) : maxElement (oneHot n i : List K) = i := by
  have hzeros : ∀ (zeros tail best start : ℕ),
      maxElementFrom best (0 : K) start
        (List.replicate zeros 0 ++ 1 :: List.replicate tail 0) = start + zeros := by
    intro zeros tail best
    induction zeros with
    | zero =>
        intro start
        simp only [List.replicate_zero, List.nil_append, maxElementFrom, if_pos zero_lt_one]
        exact maxElementFrom_replicate_zero _ _ _ zero_le_one
    | succ zeros ih =>
        intro start
        simp only [List.replicate_succ, List.cons_append, maxElementFrom, lt_irrefl, if_false]
        rw [ih]
        omega
  rw [oneHot_eq_append hi]
  cases i with
  | zero =>
      simp only [List.replicate_zero, List.nil_append, maxElement]
      exact maxElementFrom_replicate_zero _ _ _ zero_le_one
  | succ i =>
      simp only [List.replicate_succ, List.cons_append, maxElement]
      rw [hzeros]
      omega

/-- A variate below one drawn against a one-hot returns its peak. -/
theorem drawLoop_oneHot {n i : ℕ} (hi : i < n) {r : K} (hr : r < 1) :
    drawLoop 0 0 r (oneHot n i) = i := by
  have hzeros : ∀ (zeros tail last start : ℕ),
      drawLoop last start r (List.replicate zeros 0 ++ 1 :: List.replicate tail 0) =
        start + zeros := by
    intro zeros tail last
    induction zeros with
    | zero =>
        intro start
        have hpos : ¬ (1 : K) ≤ 0 := not_le.mpr zero_lt_one
        have hused : r - 1 ≤ 0 := sub_nonpos.mpr hr.le
        simp [drawLoop, hpos, hused]
    | succ zeros ih =>
        intro start
        simp only [List.replicate_succ, List.cons_append, drawLoop, le_refl, if_true]
        rw [ih]
        omega
  rw [oneHot_eq_append hi, hzeros, Nat.zero_add]

omit [IsStrictOrderedRing K] in
/-- With the temperature off the distribution is the one-hot at the greedy token. -/
theorem distribution_greedy (lib : StdLib K) {sampler : Sampler K}
    (hgreedy : sampler.config.temperature ≤ 0) {logits : List K} (hne : logits ≠ [])
    (recent : List TokenId) :
    sampler.distribution lib logits recent =
      .ok (oneHot logits.length (greedyToken sampler.config logits recent)) := by
  simp [Sampler.distribution, distributionOf, hne, hgreedy, greedyToken]

/-- With the temperature off `sample` returns the greedy token and leaves the
generator alone. -/
theorem sample_greedy (lib : StdLib K) {sampler : Sampler K}
    (hgreedy : sampler.config.temperature ≤ 0) {logits : List K} (hne : logits ≠ [])
    (recent : List TokenId) :
    sampler.sample lib logits recent =
      (.ok (greedyToken sampler.config logits recent), sampler) := by
  simp only [Sampler.sample, distribution_greedy lib hgreedy hne, if_pos hgreedy,
    maxElement_oneHot (greedyToken_lt _ _ hne)]

end Reame.Core
