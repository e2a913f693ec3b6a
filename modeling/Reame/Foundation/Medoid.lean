import Reame.Foundation.Majority
import Mathlib.Algebra.Order.BigOperators.Group.Finset
import Mathlib.Algebra.Order.Field.Basic

/-!
# Medoids

Voters stand at points, and the medoid is the voter whose point is most similar to those of the
others, summed.  When more than half of the voters stand at one point, each of them is ahead of
every other voter (`score_lt_of_majority`): by the triangle inequality a voter elsewhere gains
from each of the rest at most what it loses with each of the majority.

The similarity that this is used for is the one of Jaccard, of finite sets.  Two empty sets have
nothing in common, so their similarity is zero here; the triangle inequality holds nevertheless
(`jaccard_triangle`).
-/

namespace Reame.Medoid

open Finset

variable (K : Type*) [Field K]

/-! ## Scores -/

section Score

variable {K} {ι X : Type*} [Fintype ι] [DecidableEq ι]
variable (point : ι → X) (sim : X → X → K)

/-- The summed similarity of a voter to the others. -/
def score (i : ι) : K := ∑ j ∈ univ.erase i, sim (point i) (point j)

/-- The score with the voter itself. -/
theorem score_add_self (i : ι) :
    score point sim i + sim (point i) (point i) = ∑ j, sim (point i) (point j) :=
  sum_erase_add univ _ (mem_univ i)

variable {point sim}

/-- Voters at one point have one score. -/
theorem score_congr {i k : ι} (hpoint : point i = point k) :
    score point sim i = score point sim k := by
  have hi := score_add_self point sim i
  rw [hpoint, ← score_add_self] at hi
  exact add_right_cancel hi

variable [DecidableEq X] [LinearOrder K] [IsStrictOrderedRing K]

/-- A voter at the point of the majority is ahead of one elsewhere. -/
theorem score_lt_of_majority (hcomm : ∀ x y, sim x y = sim y x)
    (htriangle : ∀ x y z, sim x y + sim y z ≤ 1 + sim x z) {p : X} (hself : sim p p = 1)
    (hother : ∀ q, p ≠ q → sim p q < 1) (hmajority : Majority.HasMajority point p) {i k : ι}
    (hpoint : point i = p) (helse : point k ≠ p) :
    score point sim k < score point sim i := by
  set q := point k with hq
  have hgap : 0 < 1 - sim p q := sub_pos.mpr (hother q helse.symm)
  set near := (univ.erase k).filter fun j => point j = p with hnear
  set far := (univ.erase k).filter fun j => ¬ point j = p with hfar
  -- How many of the others stand where.
  have hmost : far.card + 1 < near.card := by
    have hnot : k ∉ univ.filter fun j => point j = p := fun hmem => helse (mem_filter.mp hmem).2
    have hvotes : near.card = Majority.votes point p := by
      rw [hnear, filter_erase, erase_eq_of_notMem hnot, Majority.votes]
    have hsplit : near.card + far.card = (univ.erase k).card :=
      card_filter_add_card_filter_not _
    rw [card_erase_of_mem (mem_univ k), card_univ] at hsplit
    have hpos : 0 < Fintype.card ι := Fintype.card_pos_iff.mpr ⟨k⟩
    unfold Majority.HasMajority at hmajority
    omega
  -- What the two differ by, from the majority and from the rest.
  have hagree : ∑ j ∈ near, (sim p (point j) - sim q (point j)) = near.card * (1 - sim p q) := by
    rw [← nsmul_eq_mul]
    refine sum_eq_card_nsmul fun j hj => ?_
    rw [(mem_filter.mp hj).2, hself, hcomm q p]
  have hdiffer : -(far.card * (1 - sim p q)) ≤
      ∑ j ∈ far, (sim p (point j) - sim q (point j)) := by
    rw [← mul_neg, ← nsmul_eq_mul]
    refine card_nsmul_le_sum _ _ _ fun j _ => ?_
    have htriangle := htriangle p q (point j)
    linarith
  have hwhole : ∑ j ∈ univ.erase k, sim p (point j) + sim p q = score point sim i + 1 := by
    have hi := score_add_self point sim i
    rw [hpoint, hself] at hi
    rw [hi, hq]
    exact sum_erase_add univ _ (mem_univ k)
  have hahead : (far.card + 1 : K) * (1 - sim p q) < near.card * (1 - sim p q) :=
    mul_lt_mul_of_pos_right (by exact_mod_cast hmost) hgap
  have hsum : ∑ j ∈ univ.erase k, sim p (point j) - score point sim k =
      ∑ j ∈ near, (sim p (point j) - sim q (point j)) +
        ∑ j ∈ far, (sim p (point j) - sim q (point j)) := by
    rw [score, ← sum_sub_distrib, sum_filter_add_sum_filter_not]
  linarith

end Score

/-! ## Jaccard similarity -/

section Jaccard

variable {α : Type*} [DecidableEq α]

/-- How much of the union of two sets is common to them. -/
def jaccard (A B : Finset α) : K := (A ∩ B).card / (A ∪ B).card

theorem jaccard_comm (A B : Finset α) : jaccard K A B = jaccard K B A := by
  rw [jaccard, jaccard, inter_comm, union_comm]

variable [LinearOrder K] [IsStrictOrderedRing K]

theorem jaccard_nonneg (A B : Finset α) : 0 ≤ jaccard K A B :=
  div_nonneg (Nat.cast_nonneg _) (Nat.cast_nonneg _)

variable {A B : Finset α}

theorem jaccard_self (hA : A.Nonempty) : jaccard K A A = 1 := by
  rw [jaccard, inter_self, union_self]
  exact div_self (Nat.cast_ne_zero.mpr (card_pos.mpr hA).ne')

theorem jaccard_lt_one (hne : A ≠ B) : jaccard K A B < 1 := by
  have hproper : A ∩ B ⊂ A ∪ B := by
    refine (inter_subset_left.trans subset_union_left).ssubset_of_ne fun heq => hne ?_
    have hA : A ⊆ B := (subset_union_left.trans heq.ge).trans inter_subset_right
    have hB : B ⊆ A := (subset_union_right.trans heq.ge).trans inter_subset_left
    exact hA.antisymm hB
  have hlt := card_lt_card hproper
  have hpos : (0 : K) < (A ∪ B).card := Nat.cast_pos.mpr (by omega)
  exact (div_lt_one hpos).mpr (Nat.cast_lt.mpr hlt)

/-- Within a larger set the common part is a smaller share. -/
theorem le_jaccard {V : Finset α} (hV : A ∪ B ⊆ V) :
    ((A ∩ B).card : K) / V.card ≤ jaccard K A B := by
  rcases (A ∪ B).card.eq_zero_or_pos with hzero | hpos
  · have hinter : (A ∩ B).card = 0 :=
      Nat.eq_zero_of_le_zero (hzero ▸ card_le_card (inter_subset_left.trans subset_union_left))
    rw [hinter, Nat.cast_zero, zero_div]
    exact jaccard_nonneg K A B
  · exact div_le_div_of_nonneg_left (Nat.cast_nonneg _) (Nat.cast_pos.mpr hpos)
      (Nat.cast_le.mpr (card_le_card hV))

/-- Within a larger set what is not common is a smaller share. -/
theorem jaccard_le {V : Finset α} (hV : A ∪ B ⊆ V) :
    jaccard K A B ≤ 1 - ((A ∪ B) \ (A ∩ B)).card / V.card := by
  have hsub : A ∩ B ⊆ A ∪ B := inter_subset_left.trans subset_union_left
  rcases (A ∪ B).card.eq_zero_or_pos with hzero | hpos
  · have hempty : A ∪ B = ∅ := card_eq_zero.mp hzero
    simp [jaccard, hempty]
  · have hpos : (0 : K) < (A ∪ B).card := Nat.cast_pos.mpr hpos
    have hV : ((A ∪ B).card : K) ≤ V.card := Nat.cast_le.mpr (card_le_card hV)
    calc jaccard K A B
        = 1 - ((A ∪ B) \ (A ∩ B)).card / (A ∪ B).card := by
          rw [jaccard, card_sdiff_of_subset hsub, Nat.cast_sub (card_le_card hsub)]
          field_simp
          ring
      _ ≤ 1 - ((A ∪ B) \ (A ∩ B)).card / V.card :=
          sub_le_sub_left (div_le_div_of_nonneg_left (Nat.cast_nonneg _) hpos hV) 1

/-- The distance `1 - jaccard` satisfies the triangle inequality. -/
theorem jaccard_triangle (A B C : Finset α) :
    jaccard K A B + jaccard K B C ≤ 1 + jaccard K A C := by
  set V := A ∪ B ∪ C with hV
  have hAB : A ∪ B ⊆ V := subset_union_left
  have hBC : B ∪ C ⊆ V := union_subset (subset_union_right.trans hAB) subset_union_right
  have hAC : A ∪ C ⊆ V := union_subset (subset_union_left.trans hAB) subset_union_right
  rcases V.eq_empty_or_nonempty with hempty | hne
  · obtain ⟨hfront, -⟩ := union_eq_empty.mp (hV.symm.trans hempty)
    obtain ⟨hA, hB⟩ := union_eq_empty.mp hfront
    simp [jaccard, hA, hB]
  · -- What is not common to the outer two is missing in one of the three.
    have hcover : V ⊆ A ∩ C ∪ ((A ∪ B) \ (A ∩ B) ∪ (B ∪ C) \ (B ∩ C)) := by
      intro x hx
      simp only [hV, mem_union, mem_inter, mem_sdiff] at hx ⊢
      tauto
    have hcard : (V.card : K) ≤
        (A ∩ C).card + (((A ∪ B) \ (A ∩ B)).card + ((B ∪ C) \ (B ∩ C)).card) := by
      exact_mod_cast (card_le_card hcover).trans ((card_union_le _ _).trans
        (Nat.add_le_add_left (card_union_le _ _) _))
    have hpos : (0 : K) < V.card := Nat.cast_pos.mpr (card_pos.mpr hne)
    have hshare : 1 ≤ ((A ∩ C).card : K) / V.card + (((A ∪ B) \ (A ∩ B)).card / V.card +
        ((B ∪ C) \ (B ∩ C)).card / V.card) := by
      rw [← add_div, ← add_div]
      exact (one_le_div hpos).mpr hcard
    calc jaccard K A B + jaccard K B C
        ≤ (1 - ((A ∪ B) \ (A ∩ B)).card / V.card) + (1 - ((B ∪ C) \ (B ∩ C)).card / V.card) :=
          add_le_add (jaccard_le K hAB) (jaccard_le K hBC)
      _ ≤ 1 + ((A ∩ C).card : K) / V.card := by linarith
      _ ≤ 1 + jaccard K A C := add_le_add_right (le_jaccard K hAC) 1

end Jaccard

end Reame.Medoid
