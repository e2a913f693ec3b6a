import Mathlib.Data.List.Infix
import Mathlib.Algebra.BigOperators.Group.List.Basic
import Mathlib.Tactic

/-!
# Keeping the most recent part

Two ways of bounding a history.  `fit` drops entries from the front until their total
weight is within a budget: what stays is the longest suffix that fits, and it does not
matter whether the budget is enforced after every entry or once at the end.  `keepLast`
keeps a number of entries, and `buckets` does so for every key of a keyed history.
-/

namespace Reame.Retention

variable {α : Type*}

/-! ## A budget for the whole -/

section Fit

variable (weight : α → ℕ) (budget : ℕ)

/-- The weight of a history. -/
def total (l : List α) : ℕ := (l.map weight).sum

@[simp] theorem total_nil : total weight [] = 0 := rfl

@[simp] theorem total_cons (a : α) (l : List α) :
    total weight (a :: l) = weight a + total weight l := by
  simp [total]

@[simp] theorem total_append (l m : List α) :
    total weight (l ++ m) = total weight l + total weight m := by
  simp [total]

/-- Drop entries from the front until the rest fits. -/
def fit : List α → List α
  | [] => []
  | a :: l => if budget < total weight (a :: l) then fit l else a :: l

/-- The longest suffix of a history whose weight is within the budget. -/
structure IsLongestFitting (l kept : List α) : Prop where
  suffix : kept <:+ l
  fits : total weight kept ≤ budget
  longest : ∀ other, other <:+ l → total weight other ≤ budget → other.length ≤ kept.length

variable {weight budget}

theorem fit_of_le {l : List α} (hle : total weight l ≤ budget) : fit weight budget l = l := by
  cases l with
  | nil => rfl
  | cons a l => rw [fit, if_neg (by omega)]

theorem fit_isLongestFitting (l : List α) :
    IsLongestFitting weight budget l (fit weight budget l) := by
  induction l with
  | nil =>
      refine ⟨List.suffix_rfl, by simp [fit], ?_⟩
      intro other hother _
      rw [List.suffix_nil.mp hother, fit]
  | cons a l ih =>
      by_cases hover : budget < total weight (a :: l)
      · rw [fit, if_pos hover]
        refine ⟨ih.suffix.trans (List.suffix_cons a l), ih.fits, ?_⟩
        intro other hother hfits
        rcases List.suffix_cons_iff.mp hother with rfl | hother
        · omega
        · exact ih.longest other hother hfits
      · rw [fit, if_neg hover]
        exact ⟨List.suffix_rfl, by omega, fun _ hother _ => hother.length_le⟩

theorem fit_suffix (l : List α) : fit weight budget l <:+ l := (fit_isLongestFitting l).suffix

theorem total_fit_le (l : List α) : total weight (fit weight budget l) ≤ budget :=
  (fit_isLongestFitting l).fits

/-- There is only one longest fitting suffix. -/
theorem IsLongestFitting.unique {l kept kept' : List α}
    (hkept : IsLongestFitting weight budget l kept)
    (hkept' : IsLongestFitting weight budget l kept') : kept = kept' := by
  have hlength : kept.length = kept'.length :=
    Nat.le_antisymm (hkept'.longest kept hkept.suffix hkept.fits)
      (hkept.longest kept' hkept'.suffix hkept'.fits)
  exact (List.suffix_of_suffix_length_le hkept.suffix hkept'.suffix hlength.le).eq_of_length
    hlength

/-- Enforcing the budget early changes nothing. -/
theorem fit_fit_append (l m : List α) :
    fit weight budget (fit weight budget l ++ m) = fit weight budget (l ++ m) := by
  refine IsLongestFitting.unique (fit_isLongestFitting _) ?_
  have hwhole : IsLongestFitting weight budget (l ++ m) (fit weight budget (l ++ m)) :=
    fit_isLongestFitting _
  obtain ⟨dropped, hdropped⟩ : fit weight budget l <:+ l := fit_suffix l
  have hsub : fit weight budget l ++ m <:+ l ++ m := by
    refine ⟨dropped, ?_⟩
    rw [← List.append_assoc, hdropped]
  refine ⟨?_, hwhole.fits, fun other hother => hwhole.longest other (hother.trans hsub)⟩
  -- Both are suffixes of `l ++ m`; the one that fits cannot be the longer one unless it
  -- reaches into the part of `l` that was dropped, and that part did not fit.
  refine List.suffix_of_suffix_length_le hwhole.suffix hsub ?_
  by_contra hlonger
  obtain ⟨front, hfront⟩ := hwhole.suffix
  have hm : m <:+ fit weight budget (l ++ m) := by
    refine List.suffix_of_suffix_length_le (List.suffix_append l m) hwhole.suffix ?_
    simp only [List.length_append] at hlonger
    omega
  obtain ⟨middle, hmiddle⟩ := hm
  have hmiddleSuffix : middle <:+ l := by
    refine ⟨front, ?_⟩
    rw [← hmiddle, ← List.append_assoc] at hfront
    exact List.append_cancel_right hfront
  have hmiddleFits : total weight middle ≤ budget := by
    have hfits := hwhole.fits
    rw [← hmiddle, total_append] at hfits
    omega
  have hshort := (fit_isLongestFitting l).longest middle hmiddleSuffix hmiddleFits
  rw [← hmiddle, List.length_append, List.length_append] at hlonger
  omega

end Fit

/-! ## A number of entries for every key -/

/-- The last `n` entries. -/
def keepLast (n : ℕ) (l : List α) : List α := l.drop (l.length - n)

theorem keepLast_keepLast_append (n : ℕ) (l : List α) (a : α) :
    keepLast n (keepLast n l ++ [a]) = keepLast n (l ++ [a]) := by
  by_cases hshort : l.length ≤ n
  · have hall : keepLast n l = l := by simp [keepLast, Nat.sub_eq_zero_of_le hshort]
    rw [hall]
  · have hsplit : l.length - n + 1 + (n - 1) = l.length ∨ n = 0 := by omega
    simp only [keepLast, List.length_append, List.length_drop, List.length_singleton]
    rcases hsplit with hsplit | rfl
    · rw [← List.drop_append_of_le_length (by omega), List.drop_drop]
      congr 1
      omega
    · simp

/-- The last `n` entries hold the last one. -/
theorem keepLast_append_singleton {n : ℕ} (hn : 1 ≤ n) (l : List α) (a : α) :
    ∃ before, keepLast n (l ++ [a]) = before ++ [a] := by
  refine ⟨l.drop (l.length + 1 - n), ?_⟩
  rw [keepLast, List.length_append, List.length_singleton,
    List.drop_append_of_le_length (by omega)]

/-- A search from the newest entry back, among those that are kept, finds nothing or what it
finds among all of them. -/
theorem findSome?_keepLast {β : Type*} (f : α → Option β) (n : ℕ) (l : List α) :
    (keepLast n l).reverse.findSome? f = none ∨
      (keepLast n l).reverse.findSome? f = l.reverse.findSome? f := by
  have hsplit : l.reverse = (keepLast n l).reverse ++ (l.take (l.length - n)).reverse := by
    rw [← List.reverse_append, keepLast, List.take_append_drop]
  rw [hsplit, List.findSome?_append]
  cases (keepLast n l).reverse.findSome? f with
  | none => exact .inl rfl
  | some found => exact .inr rfl

variable {κ : Type*} [DecidableEq κ]

/-- The last `cap` entries of each key. -/
def buckets (cap : ℕ) (entries : List (κ × α)) (key : κ) : List α :=
  keepLast cap ((entries.filter fun entry => entry.1 = key).map Prod.snd)

theorem buckets_nil (cap : ℕ) (key : κ) : buckets cap ([] : List (κ × α)) key = [] := by
  simp [buckets, keepLast]

/-- Add an entry to the bucket of its key. -/
def insertCapped (cap : ℕ) (table : κ → List α) (entry : κ × α) : κ → List α :=
  Function.update table entry.1 (keepLast cap (table entry.1 ++ [entry.2]))

theorem insertCapped_buckets (cap : ℕ) (entries : List (κ × α)) (entry : κ × α) :
    insertCapped cap (buckets cap entries) entry = buckets cap (entries ++ [entry]) := by
  funext key
  by_cases hkey : key = entry.1
  · subst hkey
    rw [insertCapped, Function.update_self, buckets, keepLast_keepLast_append]
    simp [buckets]
  · have hother : ¬ entry.1 = key := fun heq => hkey heq.symm
    simp [insertCapped, Function.update_of_ne hkey, buckets, hother]

/-- Filling the table entry by entry. -/
theorem foldl_insertCapped (cap : ℕ) (entries later : List (κ × α)) :
    later.foldl (insertCapped cap) (buckets cap entries) = buckets cap (entries ++ later) := by
  induction later generalizing entries with
  | nil => simp
  | cons entry later ih =>
      rw [List.foldl_cons, insertCapped_buckets, ih, List.append_assoc, List.singleton_append]

end Reame.Retention
