import Reame.Core.Conclave
import Reame.Foundation.Medoid

/-!
# The text medoid

When the candidates do not agree on a number, the one is elected whose words are the most similar
to those of the others.  The similarity of two texts is the Jaccard similarity of their sets of
words (`answerSimilarity_eq`), and what `elect` compares are the scores of voters that stand at
these sets (`similarityTo_eq`); so a set of words that more than half of the candidates have wins,
and its first candidate is elected (`elect_of_majority`).
-/

namespace Reame.Core.Conclave

variable (K : Type*) [Field K]

/-- The words of a text as a set. -/
def words (text : Bytes) : Finset Bytes := (wordSet text).toFinset

theorem nodup_wordSet (text : Bytes) : (wordSet text).Nodup := List.nodup_dedup _

/-- `answer_similarity` is the Jaccard similarity of the words. -/
theorem answerSimilarity_eq (a b : Bytes) :
    answerSimilarity K a b = Medoid.jaccard K (words a) (words b) := by
  have hcommon : ((wordSet a).countP (· ∈ wordSet b)) = (words a ∩ words b).card := by
    have hfilter : words a ∩ words b = ((wordSet a).filter (· ∈ wordSet b)).toFinset := by
      ext w
      simp [words]
    rw [hfilter, List.toFinset_card_of_nodup ((nodup_wordSet a).filter _),
      List.countP_eq_length_filter]
  have huni : (wordSet a).length + (wordSet b).length - (wordSet a).countP (· ∈ wordSet b) =
      (words a ∪ words b).card := by
    rw [hcommon, Finset.card_union, words, words, List.toFinset_card_of_nodup (nodup_wordSet a),
      List.toFinset_card_of_nodup (nodup_wordSet b)]
  unfold answerSimilarity
  dsimp only
  rw [huni, hcommon]
  split
  · rename_i hempty
    rcases hempty with hempty | hempty <;> simp [Medoid.jaccard, words, hempty]
  · split
    · rename_i hzero
      rw [Medoid.jaccard, hzero, Nat.cast_zero, div_zero]
    · rfl

/-- The loop of `elect` that adds up the similarities. -/
theorem similarityTo_eq {n : ℕ} (texts : Fin n → Bytes) (i : Fin n) :
    similarityTo K (List.ofFn texts) i =
      Medoid.score (fun j => words (texts j)) (Medoid.jaccard K) i := by
  have hfold : ∀ (f : ℕ → K) (m : ℕ), (List.range m).foldl
      (fun score j => if (i : ℕ) ≠ j then score + f j else score) 0 =
        ∑ j ∈ Finset.range m, if (i : ℕ) ≠ j then f j else 0 := by
    intro f m
    induction m with
    | zero => rfl
    | succ m ih =>
        rw [List.range_succ, List.foldl_append, ih, Finset.sum_range_succ]
        by_cases hm : (i : ℕ) ≠ m
        · simp [hm]
        · simp [hm]
  unfold similarityTo
  rw [hfold, List.length_ofFn, Finset.sum_range, Medoid.score, ← Finset.filter_ne, Finset.sum_filter]
  refine Finset.sum_congr rfl fun j _ => ?_
  rw [getD_ofFn, getD_ofFn, answerSimilarity_eq]
  simp only [ne_eq, Fin.val_inj]

variable [LinearOrder K] [IsStrictOrderedRing K]

/-- A set of words that more than half of the candidates have wins, with its first candidate. -/
theorem elect_of_majority {candidates : List Bytes} (htwo : 2 ≤ candidates.length)
    {common : Finset Bytes} (hne : common.Nonempty)
    (hmajority : candidates.length < 2 * candidates.countP (fun text => words text = common)) :
    elect K candidates = candidates.findIdx (fun text => words text = common) := by
  obtain ⟨n, texts, rfl⟩ : ∃ n, ∃ texts : Fin n → Bytes, candidates = List.ofFn texts :=
    ⟨_, candidates.get, (List.ofFn_get candidates).symm⟩
  set agrees : Bytes → Bool := fun text => words text = common with hagrees
  set point := fun i => words (texts i) with hpoint
  have hvotes : Majority.HasMajority point common := by
    rw [List.length_ofFn, Majority.countP_ofFn] at hmajority
    simpa [Majority.HasMajority, Majority.votes, hagrees] using hmajority
  -- The first of the majority.
  have hlt : (List.ofFn texts).findIdx agrees < (List.ofFn texts).length := by
    rw [List.findIdx_lt_length]
    by_contra hnone
    rw [List.countP_eq_zero.mpr fun text htext hagree => hnone ⟨text, htext, hagree⟩] at hmajority
    omega
  let first : Fin n := ⟨(List.ofFn texts).findIdx agrees, hlt.trans_eq List.length_ofFn⟩
  have hwords : point first = common := by
    have hagree := List.findIdx_getElem (w := hlt)
    rw [List.getElem_ofFn] at hagree
    exact of_decide_eq_true hagree
  have hearlier : ∀ j : Fin n, j < first → point j ≠ common := by
    intro j hj
    have hnot := List.not_of_lt_findIdx (show (j : ℕ) < (List.ofFn texts).findIdx agrees from hj)
    rw [List.getElem_ofFn] at hnot
    exact of_decide_eq_false hnot
  have hahead : ∀ k, point k ≠ common →
      Medoid.score point (Medoid.jaccard K) k < Medoid.score point (Medoid.jaccard K) first :=
    fun k hk => Medoid.score_lt_of_majority (Medoid.jaccard_comm K) (Medoid.jaccard_triangle K)
      (Medoid.jaccard_self K hne) (fun q hq => Medoid.jaccard_lt_one K hq) hvotes hwords hk
  have hscore : ∀ i : Fin n, similarityTo K (List.ofFn texts) i =
      Medoid.score point (Medoid.jaccard K) i := similarityTo_eq K texts
  show elect K (List.ofFn texts) = (first : ℕ)
  unfold elect
  rw [if_neg (not_lt.mpr htwo), List.length_ofFn]
  have hsplit : List.range n =
      List.range first ++ (first : ℕ) :: (List.range n).drop (first + 1) := by
    have hcons := List.drop_eq_getElem_cons (show (first : ℕ) < (List.range n).length by simp)
    have htake : (List.range n).take first = List.range first := by
      rw [List.take_range, Nat.min_eq_left first.isLt.le]
    rw [List.getElem_range] at hcons
    rw [← hcons, ← htake, List.take_append_drop]
  rw [hsplit, Majority.champion_first _ _ rfl]
  · rw [hscore]
    have hnonneg : 0 ≤ Medoid.score point (Medoid.jaccard K) first :=
      Finset.sum_nonneg fun j _ => Medoid.jaccard_nonneg K _ _
    exact neg_one_lt_zero.trans_le hnonneg
  · intro j hj _
    have hj := List.mem_range.mp hj
    have hbehind := hahead ⟨j, hj.trans first.isLt⟩ (hearlier _ hj)
    rw [← hscore, ← hscore] at hbehind
    exact hbehind
  · intro j hj _
    have hj := List.mem_range.mp (List.mem_of_mem_drop hj)
    rcases eq_or_ne (point ⟨j, hj⟩) common with hsame | hother
    · have hequal : Medoid.score point (Medoid.jaccard K) ⟨j, hj⟩ =
          Medoid.score point (Medoid.jaccard K) first :=
        Medoid.score_congr (hsame.trans hwords.symm)
      rw [← hscore, ← hscore] at hequal
      exact hequal.le
    · have hbehind := hahead ⟨j, hj⟩ hother
      rw [← hscore, ← hscore] at hbehind
      exact hbehind.le

theorem elect_of_majority_three :
    elect ℚ [ascii "a cat", ascii "Blue sky", ascii "sky, BLUE!"] = 1 :=
  (elect_of_majority ℚ (by decide) (show (words (ascii "blue sky")).Nonempty by decide)
    (by decide)).trans (by decide)

end Reame.Core.Conclave
