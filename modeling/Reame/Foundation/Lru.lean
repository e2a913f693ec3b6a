import Mathlib.Data.List.MinMax
import Mathlib.Data.List.Sort
import Mathlib.Tactic

/-!
# Least recently used first

A cache that stamps its items with increasing numbers has an order of use: the items by
their stamps (`byStamp`).  The least recently used item is the first of them
(`argmin_eq_head`), and stamping an item moves it to the end (`byStamp_cons_last`).

`Queue` is what such a cache amounts to: keys with their weights, the least recently used
first.  Room is made by dropping items from the front, and no more of them than needed
(`makeRoom_spec`).
-/

namespace Reame.Lru

/-! ## The order of use -/

section Order

variable {α : Type*} (stamp : α → ℕ) {items : List α}

/-- The items in the order of their stamps. -/
def byStamp (items : List α) : List α := items.mergeSort fun a b => stamp a ≤ stamp b

@[simp] theorem byStamp_nil : byStamp stamp [] = [] := List.mergeSort_nil

theorem byStamp_perm (items : List α) : (byStamp stamp items).Perm items :=
  List.mergeSort_perm ..

@[simp] theorem mem_byStamp {a : α} : a ∈ byStamp stamp items ↔ a ∈ items :=
  (byStamp_perm stamp items).mem_iff

theorem pairwise_byStamp (items : List α) :
    (byStamp stamp items).Pairwise fun a b => stamp a ≤ stamp b := by
  have hsorted := @List.pairwise_mergeSort _ (fun a b : α => decide (stamp a ≤ stamp b))
    (fun a b c hab hbc => by simp only [decide_eq_true_eq] at *; omega)
    (fun a b => by simp only [Bool.or_eq_true, decide_eq_true_eq]; omega) items
  exact hsorted.imp (by simp)

/-- Distinct stamps leave no choice of the order. -/
theorem eq_byStamp (hstamps : (items.map stamp).Nodup) {l : List α} (hperm : l.Perm items)
    (hsorted : l.Pairwise fun a b => stamp a ≤ stamp b) : l = byStamp stamp items := by
  refine List.Perm.eq_of_pairwise ?_ hsorted (pairwise_byStamp stamp items)
    (hperm.trans (byStamp_perm stamp items).symm)
  intro a b ha hb hab hba
  exact List.inj_on_of_nodup_map hstamps (hperm.subset ha) ((mem_byStamp stamp).mp hb)
    (le_antisymm hab hba)

theorem byStamp_filter (hstamps : (items.map stamp).Nodup) (p : α → Bool) :
    byStamp stamp (items.filter p) = (byStamp stamp items).filter p := by
  refine (eq_byStamp stamp (hstamps.sublist (List.filter_sublist.map _))
    ((byStamp_perm stamp items).filter p) ?_).symm
  exact (pairwise_byStamp stamp items).sublist List.filter_sublist

/-- An item stamped last comes last. -/
theorem byStamp_cons_last (hstamps : (items.map stamp).Nodup) {a : α}
    (hlast : ∀ b ∈ items, stamp b < stamp a) :
    byStamp stamp (a :: items) = byStamp stamp items ++ [a] := by
  have hall : ((a :: items).map stamp).Nodup := by
    rw [List.map_cons, List.nodup_cons]
    refine ⟨fun hmem => ?_, hstamps⟩
    obtain ⟨b, hb, heq⟩ := List.mem_map.mp hmem
    exact absurd heq (hlast b hb).ne
  refine (eq_byStamp stamp hall ?_ ?_).symm
  · exact (List.perm_append_comm.trans ((byStamp_perm stamp items).cons a))
  · refine List.pairwise_append.mpr ⟨pairwise_byStamp stamp items, List.pairwise_singleton .., ?_⟩
    intro b hb c hc
    rw [List.mem_singleton.mp hc]
    exact (hlast b ((mem_byStamp stamp).mp hb)).le

/-- The least recently used item is the first one. -/
theorem argmin_eq_head (hstamps : (items.map stamp).Nodup) :
    items.argmin stamp = (byStamp stamp items).head? := by
  cases hsorted : byStamp stamp items with
  | nil =>
      have hperm := byStamp_perm stamp items
      rw [hsorted] at hperm
      rw [List.nil_perm.mp hperm]
      rfl
  | cons a rest =>
      have hpairwise := pairwise_byStamp stamp items
      rw [hsorted, List.pairwise_cons] at hpairwise
      have ha : a ∈ items := (mem_byStamp stamp).mp (by rw [hsorted]; exact List.mem_cons_self ..)
      cases hmin : items.argmin stamp with
      | none => simp [List.argmin_eq_none.mp hmin] at ha
      | some b =>
          have hb : b ∈ items := List.argmin_mem hmin
          have hba : stamp b ≤ stamp a := List.le_of_mem_argmin ha hmin
          have hab : stamp a ≤ stamp b := by
            rcases List.mem_cons.mp (hsorted ▸ (mem_byStamp stamp).mpr hb) with rfl | hrest
            · exact le_rfl
            · exact hpairwise.1 b hrest
          rw [List.head?_cons, List.inj_on_of_nodup_map hstamps ha hb (le_antisymm hab hba)]

/-- The order of the items in the list does not matter. -/
theorem byStamp_congr {items' : List α} (hstamps : (items'.map stamp).Nodup)
    (hperm : items.Perm items') : byStamp stamp items = byStamp stamp items' :=
  eq_byStamp stamp hstamps ((byStamp_perm stamp items).trans hperm) (pairwise_byStamp stamp items)

end Order

/-! ## Queues -/

/-- Keys with their weights, the least recently used first. -/
abbrev Queue (K : Type*) := List (K × ℕ)

namespace Queue

variable {K : Type*} (full : ℕ → Bool)

/-- The weight of all items. -/
def weight (q : Queue K) : ℕ := (q.map Prod.snd).sum

@[simp] theorem weight_nil : weight ([] : Queue K) = 0 := rfl

@[simp] theorem weight_cons (item : K × ℕ) (q : Queue K) :
    weight (item :: q) = item.2 + weight q := rfl

@[simp] theorem weight_append (q q' : Queue K) : weight (q ++ q') = weight q + weight q' := by
  simp [weight]

theorem weight_sublist {q q' : Queue K} (hsub : q.Sublist q') : weight q ≤ weight q' :=
  (hsub.map _).sum_le_sum (by simp)

/-- Drop items as long as the weight of those that are left is too much. -/
def makeRoom : Queue K → Queue K
  | [] => []
  | item :: q => if full (weight (item :: q)) then makeRoom q else item :: q

/-- The keys that are dropped. -/
def dropped : Queue K → List K
  | [] => []
  | item :: q => if full (weight (item :: q)) then item.1 :: dropped q else []

theorem makeRoom_of_never {full : ℕ → Bool} (hnever : ∀ total, full total = false) (q : Queue K) :
    makeRoom full q = q := by
  cases q with
  | nil => rfl
  | cons item q => simp [makeRoom, hnever]

/-- Items are dropped from the front, and only as long as there is too much. -/
theorem makeRoom_spec (q : Queue K) :
    ∃ n, makeRoom full q = q.drop n ∧ dropped full q = (q.take n).map Prod.fst ∧
      (∀ m < n, full (weight (q.drop m)) = true) ∧
      (full 0 = false → full (weight (q.drop n)) = false) := by
  induction q with
  | nil => exact ⟨0, rfl, rfl, by simp, id⟩
  | cons item q ih =>
      by_cases hfull : full (weight (item :: q)) = true
      · obtain ⟨n, hroom, hdropped, hneeded, hfits⟩ := ih
        refine ⟨n + 1, ?_, ?_, ?_, by simpa using hfits⟩
        · rw [makeRoom, if_pos hfull, hroom, List.drop_succ_cons]
        · rw [dropped, if_pos hfull, hdropped]
          rfl
        · intro m hm
          cases m with
          | zero => exact hfull
          | succ m => exact hneeded m (by omega)
      · refine ⟨0, ?_, ?_, by simp, fun _ => by simpa using hfull⟩
        · rw [makeRoom, if_neg hfull, List.drop_zero]
        · rw [dropped, if_neg hfull]
          rfl

theorem weight_makeRoom_le (q : Queue K) : weight (makeRoom full q) ≤ weight q := by
  obtain ⟨n, hroom, -⟩ := makeRoom_spec full q
  rw [hroom]
  exact weight_sublist (List.drop_sublist ..)

/-- When any weight at all is too much, nothing is left. -/
theorem dropped_eq_keys {q : Queue K} (hpos : ∀ item ∈ q, 0 < item.2)
    (hfull : ∀ total, 0 < total → total ≤ weight q → full total = true) :
    dropped full q = q.map Prod.fst := by
  induction q with
  | nil => rfl
  | cons item q ih =>
      have hitem := hpos item (List.mem_cons_self ..)
      have hrest : dropped full q = q.map Prod.fst := by
        refine ih (fun other hother => hpos other (List.mem_cons_of_mem _ hother)) ?_
        intro total htotal hle
        exact hfull total htotal (by rw [weight_cons]; omega)
      rw [dropped, if_pos (hfull _ (by rw [weight_cons]; omega) le_rfl), hrest, List.map_cons]

/-- Queues with the same keys in the same order, and the same weight for each. -/
theorem eq_of_keys {q q' : Queue K} (hkeys : q.map Prod.fst = q'.map Prod.fst)
    (hweights : ∀ item ∈ q, ∀ item' ∈ q', item.1 = item'.1 → item.2 = item'.2) : q = q' := by
  induction q generalizing q' with
  | nil => exact (List.map_eq_nil_iff.mp hkeys.symm).symm
  | cons item q ih =>
      cases q' with
      | nil => simp at hkeys
      | cons item' q' =>
          rw [List.map_cons, List.map_cons, List.cons.injEq] at hkeys
          have hitem : item = item' :=
            Prod.ext hkeys.1 (hweights _ (List.mem_cons_self ..) _ (List.mem_cons_self ..) hkeys.1)
          have hrest : q = q' := ih hkeys.2 fun other hother other' hother' =>
            hweights _ (List.mem_cons_of_mem _ hother) _ (List.mem_cons_of_mem _ hother')
          rw [hitem, hrest]

end Queue

end Reame.Lru
