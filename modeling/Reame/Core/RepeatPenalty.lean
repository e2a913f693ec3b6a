import Reame.Core.Sampler

/-!
# The repeat penalty

The convention is to penalise a token once if the window has it: a positive logit is divided
by the penalty, another one multiplied.  The loop of `Sampler::distribution` goes over the
window instead and penalises the token of every position, so that a token is penalised as
often as it occurs (`getElem?_penalize`).

Both come to the same thing for a token that occurs once, for a logit of zero and for a
penalty of one, and in no other case (`penalised_once_iff`).
-/

namespace Reame.Core

variable {K : Type*} [Field K] [LinearOrder K]

/-- Penalising one logit. -/
def penalizeLogit (penalty logit : K) : K := if 0 < logit then logit / penalty else logit * penalty

/-- The last `min(|recent|, repeat_last_n)` tokens. -/
def penaltyWindow (config : GenerationConfig K) (recent : List TokenId) : List TokenId :=
  recent.drop (recent.length - min recent.length config.repeatLastN.toNat)

/-- The convention: every token of the window is penalised once. -/
def PenalisedOnce (config : GenerationConfig K) (logits : List K) (recent : List TokenId)
    (penalised : List K) : Prop :=
  ∀ t : ℕ, penalised[t]? =
    if (t : TokenId) ∈ penaltyWindow config recent then
      logits[t]?.map (penalizeLogit config.repeatPenalty)
    else logits[t]?

/-! ## One token after the other -/

/-- A position of the window penalises its own token and no other. -/
theorem getElem?_penalizeToken (penalty : K) (logits : List K) (token : TokenId) (t : ℕ) :
    (penalizeToken penalty logits token)[t]? =
      if token = t then logits[t]?.map (penalizeLogit penalty) else logits[t]? := by
  unfold penalizeToken
  by_cases ht : token = t
  · subst ht
    rw [if_pos rfl, Int.toNat_natCast]
    split
    · rename_i hout
      -- Not a token of the vocabulary.
      have hlength := hout.resolve_left (Int.natCast_nonneg t).not_gt
      rw [List.getElem?_eq_none hlength]
      rfl
    · rw [List.getElem?_modify_eq]
      rfl
  · rw [if_neg ht]
    split
    · rfl
    · rename_i hin
      have hother : token.toNat ≠ t := fun heq => ht (by
        rw [← heq, Int.toNat_of_nonneg (not_lt.mp (not_or.mp hin).1)])
      rw [List.getElem?_modify_ne _ _ hother]

/-- A token is penalised as often as it occurs. -/
theorem getElem?_foldl_penalizeToken (penalty : K) (window : List TokenId) (logits : List K)
    (t : ℕ) : (window.foldl (penalizeToken penalty) logits)[t]? =
      logits[t]?.map (penalizeLogit penalty)^[window.count (t : TokenId)] := by
  induction window generalizing logits with
  | nil => simp
  | cons token rest ih =>
      rw [List.foldl_cons, ih, getElem?_penalizeToken]
      by_cases ht : token = t
      · rw [if_pos ht, ht, List.count_cons_self, Option.map_map, Function.iterate_succ]
      · rw [if_neg ht, List.count_cons_of_ne ht]

theorem iterate_penalizeLogit_zero (penalty : K) (n : ℕ) :
    (penalizeLogit penalty)^[n] 0 = 0 := by
  have hfixed : penalizeLogit penalty 0 = 0 := by simp [penalizeLogit]
  exact Function.iterate_fixed hfixed n

theorem penalizeLogit_one (logit : K) : penalizeLogit 1 logit = logit := by
  simp [penalizeLogit]

/-- The logits after the loop. -/
theorem getElem?_penalize {config : GenerationConfig K} (hlast : 0 < config.repeatLastN)
    (logits : List K) (recent : List TokenId) (t : ℕ) :
    (penalize config logits recent)[t]? = logits[t]?.map
      (penalizeLogit config.repeatPenalty)^[(penaltyWindow config recent).count (t : TokenId)] := by
  unfold penalize
  by_cases hone : config.repeatPenalty = 1
  · rw [if_neg (fun hboth => hboth.1 hone), hone]
    have hid : (penalizeLogit 1 : K → K) = id := funext penalizeLogit_one
    rw [hid, Function.iterate_id, Option.map_id, id]
  · rw [if_pos ⟨hone, hlast⟩]
    exact getElem?_foldl_penalizeToken config.repeatPenalty (penaltyWindow config recent) logits t

/-! ## Once and for all -/

variable [IsStrictOrderedRing K]

/-- A positive logit stays so under a positive penalty. -/
theorem iterate_penalizeLogit_of_pos {penalty x : K} (hpenalty : 0 < penalty) (hx : 0 < x) (n : ℕ) :
    (penalizeLogit penalty)^[n] x = x / penalty ^ n := by
  induction n generalizing x with
  | zero => simp
  | succ n ih =>
      have hstep : penalizeLogit penalty x = x / penalty := if_pos hx
      rw [Function.iterate_succ_apply, hstep, ih (div_pos hx hpenalty), div_div, pow_succ']

/-- A logit that is not positive stays so under a positive penalty. -/
theorem iterate_penalizeLogit {penalty y : K} (hpenalty : 0 < penalty) (hy : y ≤ 0) (n : ℕ) :
    (penalizeLogit penalty)^[n] y = y * penalty ^ n := by
  induction n generalizing y with
  | zero => simp
  | succ n ih =>
      have hstep : penalizeLogit penalty y = y * penalty := if_neg (not_lt.mpr hy)
      rw [Function.iterate_succ_apply, hstep, ih (mul_nonpos_of_nonpos_of_nonneg hy hpenalty.le),
        pow_succ']
      ring

/-- A second penalty shows, except on zero or if the penalty is one. -/
theorem iterate_penalizeLogit_eq_iff {penalty : K} (hpenalty : 0 < penalty) (x : K) (n : ℕ) :
    (penalizeLogit penalty)^[n + 2] x = penalizeLogit penalty x ↔ penalty = 1 ∨ x = 0 := by
  have hpow : penalty ^ (n + 2) = penalty ↔ penalty = 1 := by
    rw [pow_succ, mul_eq_right₀ hpenalty.ne', pow_eq_one_iff_of_nonneg hpenalty.le n.succ_ne_zero]
  rcases lt_trichotomy x 0 with hneg | rfl | hpos
  · have hstep : penalizeLogit penalty x = x * penalty := if_neg hneg.not_gt
    calc (penalizeLogit penalty)^[n + 2] x = penalizeLogit penalty x
        ↔ x * penalty ^ (n + 2) = x * penalty := by
          rw [iterate_penalizeLogit hpenalty hneg.le, hstep]
      _ ↔ penalty ^ (n + 2) = penalty := mul_right_inj' hneg.ne
      _ ↔ penalty = 1 := hpow
      _ ↔ penalty = 1 ∨ x = 0 := (or_iff_left hneg.ne).symm
  · rw [iterate_penalizeLogit_zero, penalizeLogit]
    simp
  · have hstep : penalizeLogit penalty x = x / penalty := if_pos hpos
    calc (penalizeLogit penalty)^[n + 2] x = penalizeLogit penalty x
        ↔ x / penalty ^ (n + 2) = x / penalty := by
          rw [iterate_penalizeLogit_of_pos hpenalty hpos, hstep]
      _ ↔ penalty ^ (n + 2) = penalty := by
          rw [div_eq_mul_inv, div_eq_mul_inv, mul_right_inj' hpos.ne', inv_inj]
      _ ↔ penalty = 1 := hpow
      _ ↔ penalty = 1 ∨ x = 0 := (or_iff_left hpos.ne').symm

/-- The sampler penalises every token of the window once exactly if the penalty is one, or a
token that the window has twice has a logit of zero. -/
theorem penalised_once_iff (config : GenerationConfig K) (logits : List K)
    (recent : List TokenId) (hlast : 0 < config.repeatLastN) (hpenalty : 0 < config.repeatPenalty) :
    PenalisedOnce config logits recent (penalize config logits recent) ↔
      config.repeatPenalty = 1 ∨ ∀ t : ℕ, 2 ≤ (penaltyWindow config recent).count (t : TokenId) →
        ∀ logit ∈ logits[t]?, logit = 0 := by
  have hat : ∀ t : ℕ, ((penalize config logits recent)[t]? =
      if (t : TokenId) ∈ penaltyWindow config recent then
        logits[t]?.map (penalizeLogit config.repeatPenalty)
      else logits[t]?) ↔
      (2 ≤ (penaltyWindow config recent).count (t : TokenId) → ∀ logit ∈ logits[t]?,
        config.repeatPenalty = 1 ∨ logit = 0) := by
    intro t
    rw [getElem?_penalize hlast]
    rcases hcount : (penaltyWindow config recent).count (t : TokenId) with _ | _ | n
    · simp [List.count_eq_zero.mp hcount]
    · have hmem : (t : TokenId) ∈ penaltyWindow config recent :=
        List.count_pos_iff.mp (by omega)
      simp [hmem]
    · have hmem : (t : TokenId) ∈ penaltyWindow config recent :=
        List.count_pos_iff.mp (by omega)
      rw [if_pos hmem]
      cases logits[t]? with
      | none => simp
      | some logit => simpa using iterate_penalizeLogit_eq_iff hpenalty logit n
  unfold PenalisedOnce
  rw [forall_congr' hat]
  by_cases hone : config.repeatPenalty = 1
  · simp [hone]
  · simp [hone]

/-- The defaults, with a penalty of two. -/
def doubling : GenerationConfig ℚ := { GenerationConfig.initial with repeatPenalty := 2 }

/-- A window in which no token occurs twice. -/
theorem penalised_once_distinct :
    PenalisedOnce doubling [4, -1] [0, 1] (penalize doubling [4, -1] [0, 1]) ∧
      0 < doubling.repeatLastN ∧ 0 < doubling.repeatPenalty := by
  have hlast : 0 < doubling.repeatLastN := by decide
  have hpenalty : 0 < doubling.repeatPenalty := two_pos
  refine ⟨(penalised_once_iff doubling [4, -1] [0, 1] hlast hpenalty).mpr (.inr fun t htwice => ?_),
    hlast, hpenalty⟩
  have honce : (penaltyWindow doubling [0, 1]).count (t : TokenId) ≤ 1 :=
    List.nodup_iff_count_le_one.mp (show (penaltyWindow doubling [0, 1]).Nodup by decide) t
  omega

/-- A logit of 4 under a penalty of 2 becomes 2 if its token occurs once, and 1 if it occurs
twice. -/
theorem penalised_twice :
    penalize doubling [4] [0] = [2] ∧ penalize doubling [4] [0, 0] = [1] ∧
      ¬ PenalisedOnce doubling [4] [0, 0] (penalize doubling [4] [0, 0]) := by
  have honce : penalize doubling [4] [0] = [2] := by
    norm_num [penalize, penalizeToken, doubling, GenerationConfig.initial]
  have htwice : penalize doubling [4] [0, 0] = [1] := by
    norm_num [penalize, penalizeToken, doubling, GenerationConfig.initial]
  have hwindow : ((0 : ℕ) : TokenId) ∈ penaltyWindow doubling [0, 0] := by decide
  refine ⟨honce, htwice, fun hpenalised => ?_⟩
  have hfirst := hpenalised 0
  rw [htwice, if_pos hwindow] at hfirst
  norm_num [penalizeLogit, doubling] at hfirst

end Reame.Core
