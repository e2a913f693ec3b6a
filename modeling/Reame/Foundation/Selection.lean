import Mathlib.Data.List.Sort

/-!
# The largest entries of a list

A partial selection brings the `k` largest entries of a list to its front and sorts these, with
the rest in any order (`IsTop`).  Whatever the order of equal entries, the front is that of the
list sorted as a whole (`IsTop.take_eq`), and so is every prefix of it (`IsTop.mono`).
-/

namespace Reame.Selection

variable {α : Type*} [LinearOrder α]

/-- The first `k` entries are sorted downwards, and none of the rest is larger than one of them. -/
structure IsTop (k : ℕ) (l : List α) : Prop where
  sorted : (l.take k).Pairwise fun a b => b ≤ a
  largest : ∀ a ∈ l.take k, ∀ b ∈ l.drop k, b ≤ a

variable {k : ℕ} {l full : List α}

theorem isTop_of_sorted (hsorted : l.Pairwise fun a b => b ≤ a) (k : ℕ) : IsTop k l := by
  rw [← List.take_append_drop k l, List.pairwise_append] at hsorted
  exact ⟨hsorted.1, hsorted.2.2⟩

/-- The front of a selection is that of the sorted list. -/
theorem IsTop.take_eq (htop : IsTop k l) (hperm : l.Perm full)
    (hfull : full.Pairwise fun a b => b ≤ a) : l.take k = full.take k := by
  -- Sorting the rest as well sorts the whole list.
  let rest := (l.drop k).insertionSort fun a b => b ≤ a
  have hrest : rest.Perm (l.drop k) := List.perm_insertionSort _ _
  have hsorted : (l.take k ++ rest).Pairwise fun a b => b ≤ a := by
    refine List.pairwise_append.mpr ⟨htop.sorted, List.pairwise_insertionSort _ _, ?_⟩
    exact fun a ha b hb => htop.largest a ha b (hrest.mem_iff.mp hb)
  have hwhole : (l.take k ++ rest).Perm full := by
    have happend := hrest.append_left (l.take k)
    rw [List.take_append_drop] at happend
    exact happend.trans hperm
  have heq : l.take k ++ rest = full :=
    hwhole.eq_of_pairwise (fun a b _ _ hab hba => hba.antisymm hab) hsorted hfull
  rw [← heq, List.take_append, List.take_take, Nat.min_self]
  rcases Nat.le_total k l.length with hk | hk
  · rw [List.length_take_of_le hk, Nat.sub_self, List.take_zero, List.append_nil]
  · have hnil : rest = [] := List.perm_nil.mp (List.drop_eq_nil_of_le hk ▸ hrest)
    rw [hnil, List.take_nil, List.append_nil]

/-- A prefix of the front is one of the sorted list. -/
theorem IsTop.mono (htop : IsTop k l) {j : ℕ} (hj : j ≤ k) : IsTop j l := by
  have htake : l.take j = (l.take k).take j := by rw [List.take_take, Nat.min_eq_left hj]
  have hdrop : l.drop j = (l.take k).drop j ++ l.drop k := by
    conv_lhs => rw [← List.take_append_drop k l, List.drop_append]
    rcases Nat.le_total k l.length with hk | hk
    · rw [List.length_take_of_le hk, Nat.sub_eq_zero_of_le hj, List.drop_zero]
    · rw [List.drop_eq_nil_of_le hk, List.drop_nil]
  have hfront := isTop_of_sorted htop.sorted j
  refine ⟨htake ▸ hfront.sorted, fun a ha b hb => ?_⟩
  rw [htake] at ha
  rw [hdrop] at hb
  rcases List.mem_append.mp hb with hb | hb
  · exact hfront.largest a ha b hb
  · exact htop.largest a (List.mem_of_mem_take ha) b hb

end Reame.Selection
