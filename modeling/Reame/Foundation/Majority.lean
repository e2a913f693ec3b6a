import Mathlib.Data.Fintype.Fin
import Mathlib.Data.List.OfFn
import Mathlib.Tactic

/-!
# Votes

Voters name candidates.  A candidate that more than half of them name is the only such
one (`HasMajority.unique`), and stays ahead of every other (`HasMajority.count_lt`).

`champion` is the loop that goes through the candidates and keeps the best score so far,
the first one at a draw; `champion_spec` says what it ends with, and `champion_first` which of
the best it is.
-/

namespace Reame.Majority

/-! ## Counting -/

section Votes

variable {ι α : Type*} [Fintype ι] [DecidableEq α]

/-- How many voters name a candidate. -/
def votes (ballot : ι → α) (v : α) : ℕ := (Finset.univ.filter fun i => ballot i = v).card

/-- More than half of the voters name the candidate. -/
def HasMajority (ballot : ι → α) (v : α) : Prop := Fintype.card ι < 2 * votes ballot v

instance (ballot : ι → α) (v : α) : Decidable (HasMajority ballot v) :=
  inferInstanceAs (Decidable (_ < _))

variable {ballot : ι → α} {v w : α}

/-- Two candidates have no voter in common. -/
theorem votes_add_le (ballot : ι → α) (hne : v ≠ w) :
    votes ballot v + votes ballot w ≤ Fintype.card ι := by
  classical
  have hdisjoint : Disjoint (Finset.univ.filter fun i => ballot i = v)
      (Finset.univ.filter fun i => ballot i = w) := by
    refine Finset.disjoint_filter.mpr fun i _ hv hw => ?_
    exact hne (hv.symm.trans hw)
  calc votes ballot v + votes ballot w
      = ((Finset.univ.filter fun i => ballot i = v) ∪
          Finset.univ.filter fun i => ballot i = w).card :=
        (Finset.card_union_of_disjoint hdisjoint).symm
    _ ≤ Fintype.card ι := Finset.card_le_univ _

theorem HasMajority.unique (hv : HasMajority ballot v) (hw : HasMajority ballot w) : v = w := by
  by_contra hne
  have hsum := votes_add_le ballot hne
  unfold HasMajority at hv hw
  omega

/-- Every other candidate has fewer votes. -/
theorem HasMajority.count_lt (hv : HasMajority ballot v) (hne : w ≠ v) :
    votes ballot w < votes ballot v := by
  have hsum := votes_add_le ballot hne
  unfold HasMajority at hv
  omega

end Votes

/-- The votes of a list of ballots. -/
theorem countP_ofFn {n : ℕ} {α : Type*} (p : α → Bool) (f : Fin n → α) :
    (List.ofFn f).countP p = (Finset.univ.filter fun i => p (f i) = true).card := by
  induction n with
  | zero => rfl
  | succ n ih =>
      rw [List.ofFn_succ, List.countP_cons, ih, Fin.card_filter_univ_succ, Nat.add_comm]
      split <;> simp_all [Nat.add_comm]

/-! ## The best so far -/

section Champion

variable {ι S : Type*}

/-- Go through the candidates, and take one that scores higher than the best so far. -/
def champion [LT S] [DecidableLT S] (eligible : ι → Bool) (score : ι → S) (candidates : List ι)
    (start : ι × S) : ι × S :=
  candidates.foldl
    (fun best i => if eligible i = true ∧ best.2 < score i then (i, score i) else best) start

theorem champion_mem [LT S] [DecidableLT S] (eligible : ι → Bool) (score : ι → S)
    (candidates : List ι) (start : ι × S) :
    (champion eligible score candidates start).1 = start.1 ∨
      (champion eligible score candidates start).1 ∈ candidates := by
  induction candidates generalizing start with
  | nil => exact .inl rfl
  | cons first rest ih =>
      unfold champion at ih ⊢
      rw [List.foldl_cons]
      split
      · exact .inr ((ih (first, score first)).elim (fun h => h ▸ List.mem_cons_self ..)
          (List.mem_cons_of_mem _))
      · exact (ih start).imp_right (List.mem_cons_of_mem _)

variable [LinearOrder S] (eligible : ι → Bool) (score : ι → S)

/-- The loop ends with an eligible candidate that no other beats, or where it has started, if none
beats that. -/
theorem champion_spec (candidates : List ι) (start : ι × S) :
    let best := champion eligible score candidates start
    (best = start ∨ ∃ i ∈ candidates, best = (i, score i) ∧ eligible i = true ∧
      start.2 < score i) ∧
      start.2 ≤ best.2 ∧ ∀ i ∈ candidates, eligible i = true → score i ≤ best.2 := by
  induction candidates generalizing start with
  | nil => exact ⟨.inl rfl, le_rfl, nofun⟩
  | cons first rest ih =>
      let next := if eligible first = true ∧ start.2 < score first then (first, score first)
        else start
      show (champion eligible score rest next = start ∨ _) ∧
        start.2 ≤ (champion eligible score rest next).2 ∧
          ∀ i ∈ first :: rest, _ → score i ≤ (champion eligible score rest next).2
      obtain ⟨hbest, hrises, hbeats⟩ := ih next
      have hnext : next = start ∨
          next = (first, score first) ∧ eligible first = true ∧ start.2 < score first := by
        by_cases htaken : eligible first = true ∧ start.2 < score first
        · exact .inr ⟨if_pos htaken, htaken⟩
        · exact .inl (if_neg htaken)
      have hfirst : eligible first = true → score first ≤ next.2 := by
        intro heligible
        by_cases hhigher : start.2 < score first
        · rw [show next = (first, score first) from if_pos ⟨heligible, hhigher⟩]
        · rw [show next = start from if_neg fun htaken => hhigher htaken.2]
          exact not_lt.mp hhigher
      have hstart : start.2 ≤ next.2 := by
        rcases hnext with hnext | ⟨hnext, -, hhigher⟩ <;> rw [hnext]
        exact hhigher.le
      refine ⟨?_, hstart.trans hrises, ?_⟩
      · rcases hbest with hbest | ⟨i, hi, hbest, heligible, hhigher⟩
        · rcases hnext with hnext | ⟨hnext, heligible, hhigher⟩
          · exact .inl (hbest.trans hnext)
          · exact .inr ⟨first, List.mem_cons_self .., hbest.trans hnext, heligible, hhigher⟩
        · exact .inr ⟨i, List.mem_cons_of_mem _ hi, hbest, heligible, hstart.trans_lt hhigher⟩
      · intro i hi heligible
        rcases List.mem_cons.mp hi with rfl | hi
        · exact (hfirst heligible).trans hrises
        · exact hbeats i hi heligible

/-- The loop ends with the candidate that beats the start, every eligible one before it, and is
not beaten by those after it. -/
theorem champion_first {front back : List ι} {i : ι} {start : ι × S} (hi : eligible i = true)
    (hstart : start.2 < score i) (hfront : ∀ j ∈ front, eligible j = true → score j < score i)
    (hback : ∀ j ∈ back, eligible j = true → score j ≤ score i) :
    champion eligible score (front ++ i :: back) start = (i, score i) := by
  have hbefore : (champion eligible score front start).2 < score i := by
    rcases (champion_spec eligible score front start).1 with hbest | ⟨j, hj, hbest, heligible, -⟩
    · rw [hbest]
      exact hstart
    · rw [hbest]
      exact hfront j hj heligible
  have hsplit : champion eligible score (front ++ i :: back) start =
      champion eligible score back (i, score i) := by
    unfold champion at hbefore ⊢
    rw [List.foldl_append, List.foldl_cons, if_pos ⟨hi, hbefore⟩]
  rw [hsplit]
  rcases (champion_spec eligible score back (i, score i)).1 with hbest | ⟨j, hj, -, heligible, hlt⟩
  · exact hbest
  · exact absurd hlt (not_lt.mpr (hback j hj heligible))

end Champion

end Reame.Majority
