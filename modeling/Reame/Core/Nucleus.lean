import Reame.Core.Sampler
import Reame.Foundation.Loop
import Reame.Foundation.Selection

/-!
# The nucleus

Step 4 of `Sampler::distribution` keeps the most probable tokens until their mass reaches `top_p`.
It does not sort the vocabulary for that: it selects the `k` most probable tokens, sorts these,
and tries again with four times as many while their mass is too small.

Each round has the `k` largest probabilities in its front, whatever the order of equal ones
(`isTop_arranged`), and where the loop leaves it has seen enough of them to stop where a scan of
the sorted vocabulary stops (`widen_spec`).  So the nucleus is that of a full sort
(`nucleus_of_weights`).
-/

namespace Reame.Core

variable {K : Type*} [Field K] [LinearOrder K]

/-! ## Scanning a sorted list -/

/-- What the inner loop leaves with. -/
theorem keepWhile_spec (topP cumulative : K) (l : List K) :
    let kept := keepWhile topP cumulative l
    kept.1 ≤ l.length ∧ kept.2 = cumulative + (l.take kept.1).sum ∧ (l ≠ [] → 0 < kept.1) ∧
      (topP ≤ kept.2 ∨ kept.1 = l.length) ∧
      ∀ j, 0 < j → j < kept.1 → cumulative + (l.take j).sum < topP := by
  induction l generalizing cumulative with
  | nil =>
      refine ⟨le_rfl, ?_, fun hne => absurd rfl hne, .inr rfl, fun j _ hlt => ?_⟩
      · simp [keepWhile]
      · exact absurd hlt (Nat.not_lt_zero j)
  | cons p rest ih =>
      rw [keepWhile]
      split
      · rename_i henough
        refine ⟨by simp, by simp, fun _ => Nat.one_pos, .inl henough, fun j hj hlt => ?_⟩
        dsimp only at hlt
        omega
      · rename_i hmore
        obtain ⟨hle, hmass, -, hleaves, hbefore⟩ := ih (cumulative + p)
        refine ⟨Nat.succ_le_succ hle, ?_, fun _ => Nat.succ_pos _, ?_, fun j hj hlt => ?_⟩
        · dsimp only
          rw [hmass, List.take_succ_cons, List.sum_cons, add_assoc]
        · exact hleaves.imp_right fun hend => congrArg (· + 1) hend
        · obtain ⟨j, rfl⟩ := Nat.exists_eq_succ_of_ne_zero hj.ne'
          rw [List.take_succ_cons, List.sum_cons, ← add_assoc]
          rcases j.eq_zero_or_pos with rfl | hj
          · rw [List.take_zero, List.sum_nil, add_zero]
            exact not_le.mp hmore
          · exact hbefore j hj (Nat.lt_of_succ_lt_succ hlt)

/-- Once the mass is reached, what follows is not looked at. -/
theorem keepWhile_append {topP cumulative : K} {front : List K} (back : List K)
    (hne : front ≠ []) (henough : topP ≤ (keepWhile topP cumulative front).2) :
    keepWhile topP cumulative (front ++ back) = keepWhile topP cumulative front := by
  induction front generalizing cumulative with
  | nil => exact absurd rfl hne
  | cons p rest ih =>
      rw [keepWhile] at henough
      rw [List.cons_append, keepWhile, keepWhile]
      split
      · rfl
      · rename_i hmore
        rw [if_neg hmore] at henough
        have hrest : rest ≠ [] := by
          rintro rfl
          exact hmore henough
        rw [ih hrest henough]

/-! ## The widening loop -/

section Widen

variable (lib : StdLib K) (probs : List K) (topP : K)

/-- The arrangement after a round: the `k` most probable tokens first, and sorted. -/
def arranged (order : List ℕ) (k : ℕ) : List ℕ :=
  let key := fun i => probs.getD i 0
  let selected := if k < probs.length then lib.nthElement key k order else order
  lib.sort key (selected.take k) ++ selected.drop k

/-- One round of the widening loop. -/
def widenStep : List ℕ × {k : ℕ // 0 < k ∧ k ≤ probs.length} →
    (List ℕ × {k : ℕ // 0 < k ∧ k ≤ probs.length}) ⊕ (List ℕ × ℕ × K)
  | (order, k) =>
      let order := arranged lib probs order k
      let kept := keepWhile topP 0 ((order.take k).map fun i => probs.getD i 0)
      if topP ≤ kept.2 ∨ k.1 = probs.length then .inr (order, kept)
      else .inl (order, ⟨min (k.1 * 4) probs.length, widened_mem k⟩)

/-- The widening loop leaves. -/
theorem exits_widen (order : List ℕ) (k : {k : ℕ // 0 < k ∧ k ≤ probs.length}) :
    Loop.Exits (widenStep lib probs topP) (order, k) (widen lib probs topP order k) := by
  obtain ⟨left, hleft⟩ : ∃ left, probs.length - k.1 = left := ⟨_, rfl⟩
  induction left using Nat.strongRecOn generalizing order k with
  | _ left ih =>
      have hk := k.2
      let order' := arranged lib probs order k
      let kept := keepWhile topP 0 ((order'.take k).map fun i => probs.getD i 0)
      let k' : {k : ℕ // 0 < k ∧ k ≤ probs.length} := ⟨min (k.1 * 4) probs.length, by omega⟩
      have hwiden : widen lib probs topP order k =
          if topP ≤ kept.2 ∨ k.1 = probs.length then (order', kept)
          else widen lib probs topP order' k' := by
        conv_lhs => rw [widen]
        rfl
      rw [hwiden]
      split
      · rename_i hleaves
        exact .leave (if_pos hleaves)
      · rename_i hstays
        refine .next (if_neg hstays) (ih (probs.length - k'.1) ?_ order' k' rfl)
        have hlarger : k'.1 = min (k.1 * 4) probs.length := rfl
        omega

variable {probs}

omit [LinearOrder K] in
theorem map_getD_range (probs : List K) :
    (List.range probs.length).map (fun i => probs.getD i 0) = probs := by
  refine List.ext_getElem (by simp) fun i hi hi' => ?_
  rw [List.getElem_map, List.getElem_range, List.getD_eq_getElem?_getD,
    List.getElem?_eq_getElem hi', Option.getD_some]

theorem perm_arranged (probs : List K) (order : List ℕ) (k : ℕ) :
    (arranged lib probs order k).Perm order := by
  unfold arranged
  dsimp only
  have hselected : ∀ selected : List ℕ, selected.Perm order →
      (lib.sort (fun i => probs.getD i 0) (selected.take k) ++ selected.drop k).Perm order := by
    intro selected hperm
    have happend := (lib.sort_perm (fun i => probs.getD i 0) (selected.take k)).append_right
      (selected.drop k)
    rw [List.take_append_drop] at happend
    exact happend.trans hperm
  split
  · exact hselected _ (lib.nthElement_perm ..)
  · exact hselected _ (.refl _)

/-- After a round the largest probabilities are in front. -/
theorem isTop_arranged {order : List ℕ} (horder : order.Perm (List.range probs.length)) {k : ℕ}
    (hk : k ≤ probs.length) :
    Selection.IsTop k ((arranged lib probs order k).map fun i => probs.getD i 0) := by
  set key := fun i => probs.getD i 0 with hkey
  have hselected : ∀ selected : List ℕ, selected.Perm order →
      (∀ a ∈ selected.take k, ∀ b ∈ selected.drop k, key b ≤ key a) →
      Selection.IsTop k ((lib.sort key (selected.take k) ++ selected.drop k).map key) := by
    intro selected hperm hsplit
    have hsort := lib.sort_perm key (selected.take k)
    have hlength : ((lib.sort key (selected.take k)).map key).length = k := by
      have hselected := (hperm.trans horder).length_eq
      rw [List.length_range] at hselected
      rw [List.length_map, hsort.length_eq, List.length_take, hselected, Nat.min_eq_left hk]
    rw [List.map_append]
    refine ⟨?_, fun a ha b hb => ?_⟩
    · rw [List.take_left' hlength]
      exact List.pairwise_map.mpr (lib.sort_sorted key _)
    · rw [List.take_left' hlength] at ha
      rw [List.drop_left' hlength] at hb
      obtain ⟨i, hi, rfl⟩ := List.mem_map.mp ha
      obtain ⟨j, hj, rfl⟩ := List.mem_map.mp hb
      exact hsplit i (hsort.mem_iff.mp hi) j hj
  unfold arranged
  dsimp only
  split
  · exact hselected _ (lib.nthElement_perm ..) (lib.nthElement_split key k order)
  · -- The whole vocabulary is sorted, and nothing is left over.
    refine hselected _ (.refl _) fun a _ b hb => ?_
    have hnone : order.drop k = [] := by
      refine List.drop_eq_nil_of_le ?_
      rw [horder.length_eq, List.length_range]
      omega
    rw [hnone] at hb
    exact absurd hb List.not_mem_nil

/-- The widening loop stops where the scan of the sorted vocabulary stops. -/
theorem widen_spec {full : List K} (hfull : probs.Perm full)
    (hsorted : full.Pairwise fun a b => b ≤ a) {order : List ℕ}
    (horder : order.Perm (List.range probs.length)) (k : {k : ℕ // 0 < k ∧ k ≤ probs.length}) :
    let out := widen lib probs topP order k
    out.1.Perm (List.range probs.length) ∧ out.2 = keepWhile topP 0 full ∧
      Selection.IsTop out.2.1 (out.1.map fun i => probs.getD i 0) := by
  have hexits := exits_widen lib probs topP order k
  generalize widen lib probs topP order k = out at hexits
  generalize hstate : (order, k) = state at hexits
  induction hexits generalizing order k with
  | @leave state out hstep =>
      subst hstate
      obtain ⟨hpos, hk⟩ := k.2
      have hnext := (perm_arranged lib probs order k).trans horder
      have htop := isTop_arranged lib horder hk
      have hvalues := hnext.map fun i => probs.getD i 0
      rw [map_getD_range] at hvalues
      have hfront := htop.take_eq (hvalues.trans hfull) hsorted
      rw [← List.map_take] at hfront
      rw [widenStep, hfront] at hstep
      split at hstep
      · rename_i hleaves
        cases hstep
        obtain ⟨hle, -⟩ := keepWhile_spec topP 0 (full.take k)
        refine ⟨hnext, ?_, htop.mono (hle.trans (List.length_take_le _ _))⟩
        rcases hleaves with henough | hwhole
        · have hne : full.take k ≠ [] := by
            rw [← List.length_pos_iff, List.length_take, ← hfull.length_eq]
            omega
          have hscan := keepWhile_append (full.drop k) hne henough
          rw [List.take_append_drop] at hscan
          exact hscan.symm
        · rw [List.take_of_length_le (by rw [← hfull.length_eq, hwhole])]
      · cases hstep
  | @next state after out hstep hrest ih =>
      subst hstate
      rw [widenStep] at hstep
      split at hstep
      · cases hstep
      · cases hstep
        exact ih ((perm_arranged lib probs order k).trans horder) _ rfl

end Widen

/-! ## The nucleus -/

/-- The entries of a distribution that are not zero. -/
def support (probs : List K) : Finset ℕ :=
  (Finset.range probs.length).filter fun i => probs.getD i 0 ≠ 0

/-- The mass of some of the tokens. -/
def massOf (probs : List K) (S : Finset ℕ) : K := ∑ i ∈ S, probs.getD i 0

/-- The rule of the header: the smallest prefix of the sorted vocabulary that reaches `top_p`, and
one token at least. -/
structure IsNucleus (probs : List K) (topP : K) (S : Finset ℕ) : Prop where
  nonempty : S.Nonempty
  within : ∀ i ∈ S, i < probs.length
  largest : ∀ i ∈ S, ∀ j < probs.length, j ∉ S → probs.getD j 0 ≤ probs.getD i 0
  reaches : topP ≤ massOf probs S
  smallest : 1 < S.card → ∀ i ∈ S, massOf probs (S.erase i) < topP

omit [LinearOrder K] in
theorem getD_foldl_set (order : List ℕ) (probs : List K) (j : ℕ) :
    (order.foldl (fun ps i => ps.set i 0) probs).getD j 0 =
      if j ∈ order then 0 else probs.getD j 0 := by
  induction order generalizing probs with
  | nil => rfl
  | cons i rest ih =>
      rw [List.foldl_cons, ih]
      by_cases hrest : j ∈ rest
      · simp [hrest]
      · rcases eq_or_ne j i with rfl | hji
        · rcases Nat.lt_or_ge j probs.length with hj | hj
          · simp [List.getD_eq_getElem?_getD, hj]
          · simp [List.getD_eq_getElem?_getD, hj]
        · simp [hrest, hji, List.getD_eq_getElem?_getD, List.getElem?_set_ne hji.symm]

omit [LinearOrder K] in
theorem getD_foldl_modify {order : List ℕ} (hnodup : order.Nodup) (mass : K) (probs : List K)
    (j : ℕ) : (order.foldl (fun ps i => ps.modify i (· / mass)) probs).getD j 0 =
      if j ∈ order then probs.getD j 0 / mass else probs.getD j 0 := by
  induction order generalizing probs with
  | nil => rfl
  | cons i rest ih =>
      obtain ⟨hi, hrest⟩ := List.nodup_cons.mp hnodup
      rw [List.foldl_cons, ih hrest]
      have hmodify : (probs.modify i (· / mass)).getD j 0 =
          if j = i then probs.getD j 0 / mass else probs.getD j 0 := by
        rw [List.getD_eq_getElem?_getD, List.getD_eq_getElem?_getD, List.getElem?_modify]
        rcases eq_or_ne j i with rfl | hji
        · cases probs[j]? <;> simp
        · simp [hji, hji.symm]
      rw [hmodify]
      rcases eq_or_ne j i with rfl | hji
      · simp [hi]
      · simp [hji]

section Weights

variable {probs : List K} {topP : K}

/-- What the nucleus keeps of each token. -/
theorem getD_nucleus (lib : StdLib K) (hne : probs ≠ []) (hhigh : topP < 1) {full : List K}
    (hfull : probs.Perm full) (hsorted : full.Pairwise fun a b => b ≤ a) :
    let kept := keepWhile topP 0 full
    ∃ order : List ℕ, order.Perm (List.range probs.length) ∧
      Selection.IsTop kept.1 (order.map fun i => probs.getD i 0) ∧
      ∀ j, (nucleus lib topP probs).getD j 0 =
        if j ∈ order.take kept.1 then probs.getD j 0 / kept.2 else 0 := by
  have hlength := List.length_pos_iff.mpr hne
  obtain ⟨hperm, hkept, htop⟩ := widen_spec lib topP hfull hsorted (.refl _)
    ⟨min 512 probs.length, by omega⟩
  rw [hkept] at htop
  refine ⟨_, hperm, htop, fun j => ?_⟩
  rw [nucleus, dif_pos ⟨hhigh, hlength⟩]
  dsimp only
  generalize hout : widen lib probs topP (List.range probs.length) _ = out at hperm hkept ⊢
  obtain ⟨order, keep, mass⟩ := out
  dsimp only at hperm hkept ⊢
  rw [← hkept]
  have hnodup : order.Nodup := hperm.nodup_iff.mpr List.nodup_range
  rw [getD_foldl_modify (hnodup.sublist (List.take_sublist ..)), getD_foldl_set]
  -- Every token is kept or zeroed, and no other position is read.
  by_cases hkeep : j ∈ order.take keep
  · have hdrop : j ∉ order.drop keep := fun hdrop =>
      (List.disjoint_take_drop hnodup le_rfl) hkeep hdrop
    rw [if_pos hkeep, if_pos hkeep, if_neg hdrop]
  · rw [if_neg hkeep, if_neg hkeep]
    split
    · rfl
    · rename_i hdrop
      have hout : j ∉ order := fun hmem => by
        rw [← List.take_append_drop keep order] at hmem
        exact (List.mem_append.mp hmem).elim hkeep hdrop
      have hover : probs.length ≤ j := by
        rw [hperm.mem_iff, List.mem_range] at hout
        exact not_lt.mp hout
      rw [List.getD_eq_getElem?_getD, List.getElem?_eq_none hover, Option.getD_none]

omit [LinearOrder K] in
/-- The mass of a list of tokens. -/
theorem massOf_toFinset {order : List ℕ} (hnodup : order.Nodup) :
    massOf probs order.toFinset = (order.map fun i => probs.getD i 0).sum := by
  rw [massOf, List.sum_toFinset _ hnodup]

omit [LinearOrder K] in
theorem massOf_range (probs : List K) : massOf probs (Finset.range probs.length) = probs.sum := by
  rw [← List.toFinset_range, massOf_toFinset List.nodup_range, map_getD_range]

variable [IsStrictOrderedRing K]

/-- The tokens in front of a selection, up to where the scan of the sorted vocabulary stops. -/
theorem isNucleus_toFinset {full : List K} (hfull : probs.Perm full)
    (hsorted : full.Pairwise fun a b => b ≤ a) (hne : probs ≠ []) (htotal : topP ≤ probs.sum)
    {order : List ℕ} (hperm : order.Perm (List.range probs.length))
    (htop : Selection.IsTop (keepWhile topP 0 full).1 (order.map fun i => probs.getD i 0)) :
    let S := (order.take (keepWhile topP 0 full).1).toFinset
    IsNucleus probs topP S ∧ massOf probs S = (keepWhile topP 0 full).2 ∧
      S.card = (keepWhile topP 0 full).1 ∧
      S.val.map (fun i => probs.getD i 0) = (full.take (keepWhile topP 0 full).1 : List K) := by
  obtain ⟨hle, hmass, hfirst, hleaves, hbefore⟩ := keepWhile_spec topP 0 full
  set keep := (keepWhile topP 0 full).1
  set mass := (keepWhile topP 0 full).2
  set key := fun i => probs.getD i 0 with hkey
  intro S
  have hnodup : (order.take keep).Nodup :=
    (hperm.nodup_iff.mpr List.nodup_range).sublist (List.take_sublist ..)
  have hvalues : (order.take keep).map key = full.take keep := by
    have hmap := hperm.map key
    rw [map_getD_range] at hmap
    rw [List.map_take]
    exact htop.take_eq (hmap.trans hfull) hsorted
  have hlength : order.length = full.length := by
    rw [hperm.length_eq, List.length_range, hfull.length_eq]
  have hcard : S.card = keep := by
    rw [List.toFinset_card_of_nodup hnodup, List.length_take, hlength, Nat.min_eq_left hle]
  have hmassOf : massOf probs S = mass := by
    rw [massOf_toFinset hnodup, hvalues, hmass, zero_add]
  have hkeep : 0 < keep := hfirst fun hnil => hne (List.perm_nil.mp (hnil ▸ hfull))
  have hmem : ∀ {i : ℕ}, i ∈ S → i ∈ order.take keep := List.mem_toFinset.mp
  refine ⟨⟨?_, ?_, ?_, ?_, ?_⟩, hmassOf, hcard, ?_⟩
  · exact Finset.card_pos.mp (hcard ▸ hkeep)
  · intro i hi
    exact List.mem_range.mp (hperm.mem_iff.mp (List.mem_of_mem_take (hmem hi)))
  · intro i hi j hj hnot
    have hdropped : j ∈ order.drop keep := by
      have horder : j ∈ order := hperm.mem_iff.mpr (List.mem_range.mpr hj)
      rw [← List.take_append_drop keep order] at horder
      exact (List.mem_append.mp horder).resolve_left fun hmem => hnot (List.mem_toFinset.mpr hmem)
    refine htop.largest (key i) ?_ (key j) ?_
    · rw [← List.map_take]
      exact List.mem_map_of_mem (hmem hi)
    · rw [← List.map_drop]
      exact List.mem_map_of_mem hdropped
  · rw [hmassOf]
    rcases hleaves with henough | hwhole
    · exact henough
    · rw [hmass, hwhole, List.take_length, zero_add, ← hfull.sum_eq]
      exact htotal
  · intro hmany i hi
    rw [hcard] at hmany
    -- No kept token is less probable than the last one.
    have hlt : keep - 1 < full.length := by omega
    have hlast : full.take keep = full.take (keep - 1) ++ [full[keep - 1]] := by
      rw [List.take_append_getElem hlt, Nat.sub_add_cancel hkeep]
    have hsmallest : full[keep - 1] ≤ key i := by
      have hvalue : key i ∈ full.take keep := hvalues ▸ List.mem_map_of_mem (hmem hi)
      have hpairwise := hsorted.sublist (List.take_sublist keep full)
      rw [hlast] at hvalue hpairwise
      rcases List.mem_append.mp hvalue with hearlier | hequal
      · exact (List.pairwise_append.mp hpairwise).2.2 _ hearlier _ List.mem_cons_self
      · exact (List.mem_singleton.mp hequal).ge
    have herase : massOf probs (S.erase i) + key i = massOf probs S :=
      Finset.sum_erase_add S key hi
    have hshort := hbefore (keep - 1) (by omega) (by omega)
    rw [hmassOf, hmass, hlast, List.sum_append, List.sum_singleton] at herase
    linarith
  · rw [← hvalues, List.toFinset_val, hnodup.dedup]
    rfl

/-- The nucleus of weights that are positive and sum to one is that of a full sort. -/
theorem nucleus_of_weights (lib : StdLib K) (hpos : ∀ p ∈ probs, 0 < p) (hsum : probs.sum = 1)
    (hhigh : topP < 1) :
    (∀ order k, Loop.Exits (widenStep lib probs topP) (order, k)
      (widen lib probs topP order k)) ∧
    let result := nucleus lib topP probs
    let S := support result
    IsNucleus probs topP S ∧
    (∀ i ∈ S, result.getD i 0 = probs.getD i 0 / massOf probs S) ∧
    result.sum = 1 ∧
    ∀ full : List ℕ, full.Perm (List.range probs.length) →
      full.Pairwise (fun i j => probs.getD j 0 ≤ probs.getD i 0) →
      let keep := (keepWhile topP 0 (full.map fun i => probs.getD i 0)).1
      S.card = keep ∧ S.val.map (fun i => probs.getD i 0) =
        ((full.take keep).map fun i => probs.getD i 0 : List K) := by
  refine ⟨exits_widen lib probs topP, ?_⟩
  intro result S
  set key := fun i => probs.getD i 0 with hkey
  have hne : probs ≠ [] := by
    rintro rfl
    exact zero_ne_one hsum
  -- The sorted probabilities.
  set sorted := (lib.sort key (List.range probs.length)).map key with hsorted
  have hfull : probs.Perm sorted := by
    have hperm := (lib.sort_perm key (List.range probs.length)).map key
    rw [map_getD_range] at hperm
    exact hperm.symm
  have hdescending : sorted.Pairwise fun a b => b ≤ a :=
    List.pairwise_map.mpr (lib.sort_sorted key _)
  obtain ⟨order, hperm, htop, hentry⟩ := getD_nucleus lib hne hhigh hfull hdescending
  obtain ⟨hnucleus, hmass, hcard, hvalues⟩ :=
    isNucleus_toFinset hfull hdescending hne (hsum ▸ hhigh.le) hperm htop
  set T := (order.take (keepWhile topP 0 sorted).1).toFinset with hT
  have hkey : ∀ i ∈ T, 0 < key i := by
    intro i hi
    have hlt := hnucleus.within i hi
    show 0 < probs.getD i 0
    rw [List.getD_eq_getElem?_getD, List.getElem?_eq_getElem hlt, Option.getD_some]
    exact hpos _ (List.getElem_mem hlt)
  have hpositive : 0 < massOf probs T := Finset.sum_pos hkey hnucleus.nonempty
  have hentry : ∀ j, result.getD j 0 = if j ∈ T then key j / massOf probs T else 0 := by
    intro j
    show (nucleus lib topP probs).getD j 0 = _
    rw [hmass, hentry j]
    simp only [hT, List.mem_toFinset]
    rfl
  have hlength : result.length = probs.length := length_nucleus lib topP probs
  have hS : S = T := by
    ext i
    show i ∈ (Finset.range result.length).filter (fun i => result.getD i 0 ≠ 0) ↔ i ∈ T
    rw [Finset.mem_filter, Finset.mem_range, hlength, hentry i]
    by_cases hi : i ∈ T
    · rw [if_pos hi]
      exact iff_of_true ⟨hnucleus.within i hi, (div_pos (hkey i hi) hpositive).ne'⟩ hi
    · rw [if_neg hi]
      exact iff_of_false (fun hmem => hmem.2 rfl) hi
  refine ⟨hS ▸ hnucleus, fun i hi => ?_, ?_, fun full horder hfull' => ?_⟩
  · rw [hS] at hi ⊢
    rw [hentry i, if_pos hi]
  · have hsub : T ⊆ Finset.range probs.length :=
      fun i hi => Finset.mem_range.mpr (hnucleus.within i hi)
    calc result.sum
        = ∑ i ∈ Finset.range probs.length, (if i ∈ T then key i / massOf probs T else 0) := by
          rw [← massOf_range, massOf, hlength]
          exact Finset.sum_congr rfl fun i _ => hentry i
      _ = massOf probs T / massOf probs T := by
          rw [Finset.sum_ite_mem, Finset.inter_eq_right.mpr hsub, ← Finset.sum_div, massOf]
      _ = 1 := div_self hpositive.ne'
  · -- Any other sorted arrangement has the same probabilities in the same order.
    have hsame : full.map key = sorted := by
      have hmap := horder.map key
      rw [map_getD_range] at hmap
      refine (hmap.trans hfull).eq_of_pairwise (fun a b _ _ hab hba => hba.antisymm hab)
        (List.pairwise_map.mpr hfull') hdescending
    dsimp only
    rw [hS, List.map_take, hsame]
    exact ⟨hcard, hvalues⟩

theorem nucleus_of_weights_three :
    let probs : List ℚ := [1 / 4, 1 / 2, 1 / 4]
    IsNucleus probs (7 / 10) (support (nucleus .rational (7 / 10) probs)) :=
  (nucleus_of_weights .rational (by norm_num) (by norm_num) (by norm_num)).2.1

end Weights

/-! ## The weights -/

section Softmax

variable [IsStrictOrderedRing K] (lib : StdLib K)

/-- The weights are positive, and they sum to one. -/
theorem softmax_weights (temperature : K) {logits : List K} (hne : logits ≠ []) :
    (∀ p ∈ softmax lib temperature logits, 0 < p) ∧ (softmax lib temperature logits).sum = 1 := by
  unfold softmax
  dsimp only
  set weights := logits.map fun logit =>
    lib.exp ((logit - logits.getD (maxElement logits) 0) / temperature) with hweights
  have hweight : ∀ w ∈ weights, 0 < w := by
    intro w hw
    obtain ⟨logit, -, rfl⟩ := List.mem_map.mp hw
    exact lib.exp_pos _
  have hsum : 0 < weights.sum := List.sum_pos weights hweight (by simpa [hweights] using hne)
  refine ⟨fun p hp => ?_, ?_⟩
  · obtain ⟨w, hw, rfl⟩ := List.mem_map.mp hp
    exact div_pos (hweight w hw) hsum
  · calc (weights.map (· / weights.sum)).sum
        = (weights.map fun w => w).sum / weights.sum := by
          simp only [div_eq_mul_inv, List.sum_map_mul_right]
      _ = 1 := by rw [List.map_id', div_self hsum.ne']

/-- Above temperature zero a distribution is the nucleus of such weights, or all of them. -/
theorem distributionOf_of_temperature {config : GenerationConfig K}
    (htemperature : 0 < config.temperature) {logits : List K} (hne : logits ≠ [])
    (recent : List TokenId) :
    ∃ probs : List K, (∀ p ∈ probs, 0 < p) ∧ probs.sum = 1 ∧ probs.length = logits.length ∧
      distributionOf lib config logits recent =
        nucleus lib (min (max config.topP 0) 1) probs := by
  have hpenalized : penalize config logits recent ≠ [] := by
    rw [← List.length_pos_iff, length_penalize]
    exact List.length_pos_iff.mpr hne
  obtain ⟨hpos, hsum⟩ := softmax_weights lib config.temperature hpenalized
  refine ⟨_, hpos, hsum, by simp [softmax], ?_⟩
  rw [distributionOf, if_neg (not_le.mpr htemperature)]

end Softmax

end Reame.Core
