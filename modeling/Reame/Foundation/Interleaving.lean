import Mathlib.Data.List.Basic
import Mathlib.Tactic.Common

/-!
# Interleavings

Threads over one shared state take turns.  `step s a` is the state after the action
`a`, or `none` where `a` is not enabled.  `Reaches` says which states a run arrives
at when each of its actions is allowed in the state it is taken from, and `perform`
executes a given order of actions, where that can be decided.

`Reaches.invariant` is the rule for what holds of every state reached, and `eachStep_iff` the
one for what holds of every step taken.  A measure that every step lowers bounds the runs
(`length_le_of_measure`), and they go on until they are `Stuck`.
-/

namespace Reame.Interleaving

variable {σ α : Type*} {step : σ → α → Option σ} {allowed : σ → α → Prop}

/-- The states that allowed actions lead to from `first`. -/
inductive Reaches (step : σ → α → Option σ) (allowed : σ → α → Prop) (first : σ) : σ → Prop
  | start : Reaches step allowed first first
  | next {s s' : σ} {a : α} (hreach : Reaches step allowed first s) (hallowed : allowed s a)
      (hstep : step s a = some s') : Reaches step allowed first s'

/-- Perform the actions in order, if each is allowed and enabled in its turn. -/
def perform (step : σ → α → Option σ) (allowed : σ → α → Prop) [∀ s a, Decidable (allowed s a)] :
    σ → List α → Option σ
  | s, [] => some s
  | s, a :: rest =>
      if allowed s a then (step s a).bind (perform step allowed · rest) else none

/-- Every action allowed. -/
abbrev Free : σ → α → Prop := fun _ _ => True

theorem Reaches.invariant {first s : σ} (hreach : Reaches step allowed first s) (Inv : σ → Prop)
    (hstart : Inv first) (hnext : ∀ s a s', Inv s → allowed s a → step s a = some s' → Inv s') :
    Inv s := by
  induction hreach with
  | start => exact hstart
  | next _ hallowed hstep ih => exact hnext _ _ _ ih hallowed hstep

theorem Reaches.perform [∀ s a, Decidable (allowed s a)] {first s s' : σ}
    (hreach : Reaches step allowed first s) {actions : List α}
    (hperform : perform step allowed s actions = some s') : Reaches step allowed first s' := by
  induction actions generalizing s with
  | nil =>
      cases hperform
      exact hreach
  | cons a rest ih =>
      rw [Interleaving.perform] at hperform
      split at hperform
      · rename_i hallowed
        obtain ⟨after, hstep, hrest⟩ := Option.bind_eq_some_iff.mp hperform
        exact ih (hreach.next hallowed hstep) hrest
      · cases hperform

theorem Reaches.trans {first s s' : σ} (hreach : Reaches step allowed first s)
    (hlater : Reaches step allowed s s') : Reaches step allowed first s' := by
  induction hlater with
  | start => exact hreach
  | next _ hallowed hstep ih => exact ih.next hallowed hstep

theorem Reaches.mono {first s : σ} (hreach : Reaches step allowed first s)
    {permitted : σ → α → Prop} (himp : ∀ s a, allowed s a → permitted s a) :
    Reaches step permitted first s := by
  induction hreach with
  | start => exact .start
  | next _ hallowed hstep ih => exact ih.next (himp _ _ hallowed) hstep

/-- No allowed action is enabled. -/
def Stuck (step : σ → α → Option σ) (allowed : σ → α → Prop) (s : σ) : Prop :=
  ∀ a, allowed s a → step s a = none

/-- Where every allowed step lowers a measure, a run can be continued until nothing is enabled. -/
theorem exists_stuck_of_measure (measure : σ → ℕ) (Inv : σ → Prop)
    (hnext : ∀ s a s', Inv s → allowed s a → step s a = some s' →
      Inv s' ∧ measure s' < measure s) {first : σ} (hfirst : Inv first) :
    ∃ s, Reaches step allowed first s ∧ Inv s ∧ Stuck step allowed s := by
  induction hm : measure first using Nat.strongRecOn generalizing first with
  | ind m ih =>
      by_cases hstuck : Stuck step allowed first
      · exact ⟨first, .start, hfirst, hstuck⟩
      · obtain ⟨a, ha⟩ := not_forall.mp hstuck
        obtain ⟨hallowed, hstep⟩ := Classical.not_imp.mp ha
        obtain ⟨next, hstep⟩ := Option.ne_none_iff_exists'.mp hstep
        obtain ⟨hinv, hless⟩ := hnext first a next hfirst hallowed hstep
        obtain ⟨s, hreach, hs⟩ := ih _ (hm ▸ hless) hinv rfl
        exact ⟨s, (Reaches.start.next hallowed hstep).trans hreach, hs⟩

/-- Where every allowed step lowers a measure, it bounds the length of a run. -/
theorem length_le_of_measure [∀ s a, Decidable (allowed s a)] (measure : σ → ℕ) (Inv : σ → Prop)
    (hnext : ∀ s a s', Inv s → allowed s a → step s a = some s' →
      Inv s' ∧ measure s' < measure s) {first s : σ} (hfirst : Inv first) {actions : List α}
    (hperform : Interleaving.perform step allowed first actions = some s) :
    actions.length ≤ measure first := by
  induction actions generalizing first with
  | nil => exact Nat.zero_le _
  | cons a rest ih =>
      rw [Interleaving.perform] at hperform
      split at hperform
      · rename_i hallowed
        obtain ⟨next, hstep, hrest⟩ := Option.bind_eq_some_iff.mp hperform
        obtain ⟨hinv, hless⟩ := hnext first a next hfirst hallowed hstep
        exact Nat.lt_of_le_of_lt (ih hinv hrest) hless
      · cases hperform

/-- Every step of a run has a property, up to an action that is not enabled. -/
def EachStep (step : σ → α → Option σ) (P : σ → α → σ → Prop) : σ → List α → Prop
  | _, [] => True
  | s, a :: rest =>
      match step s a with
      | none => True
      | some s' => P s a s' ∧ EachStep step P s' rest

instance decidableEachStep (step : σ → α → Option σ) (P : σ → α → σ → Prop)
    [∀ s a s', Decidable (P s a s')] :
    ∀ (s : σ) (actions : List α), Decidable (EachStep step P s actions)
  | _, [] => inferInstanceAs (Decidable True)
  | s, a :: rest => by
      unfold EachStep
      exact match step s a with
        | none => inferInstanceAs (Decidable True)
        | some s' =>
            have := decidableEachStep step P s' rest
            inferInstanceAs (Decidable (_ ∧ _))

/-- Two properties that agree on the steps from states with an invariant, which either of them
preserves, agree on runs. -/
theorem eachStep_iff {P Q : σ → α → σ → Prop} (Inv : σ → Prop)
    (hstep : ∀ s a s', Inv s → step s a = some s' → (P s a s' ↔ Q s a s') ∧ (P s a s' → Inv s'))
    {first : σ} (hfirst : Inv first) (actions : List α) :
    EachStep step P first actions ↔ EachStep step Q first actions := by
  induction actions generalizing first with
  | nil => exact Iff.rfl
  | cons a rest ih =>
      rw [EachStep, EachStep]
      cases hnext : step first a with
      | none => exact Iff.rfl
      | some next =>
          obtain ⟨hagree, hpreserves⟩ := hstep first a next hfirst hnext
          constructor
          · rintro ⟨hP, hrest⟩
            exact ⟨hagree.mp hP, (ih (hpreserves hP)).mp hrest⟩
          · rintro ⟨hQ, hrest⟩
            exact ⟨hagree.mpr hQ, (ih (hpreserves (hagree.mpr hQ))).mpr hrest⟩

/-- Actions that are performed after others. -/
theorem perform_append [∀ s a, Decidable (allowed s a)] {first s : σ} {actions later : List α}
    (hperform : perform step allowed first actions = some s) :
    perform step allowed first (actions ++ later) = perform step allowed s later := by
  induction actions generalizing first with
  | nil =>
      cases hperform
      rfl
  | cons a rest ih =>
      rw [perform] at hperform
      rw [List.cons_append, perform]
      split at hperform
      · rename_i hallowed
        obtain ⟨next, hstep, hrest⟩ := Option.bind_eq_some_iff.mp hperform
        rw [if_pos hallowed, hstep]
        exact ih hrest
      · cases hperform

/-- A run that arrives at a state with a given property. -/
theorem exists_reaches (step : σ → α → Option σ) (allowed : σ → α → Prop)
    [∀ s a, Decidable (allowed s a)] (first : σ) (actions : List α) (p : σ → Bool)
    (hperform : (perform step allowed first actions).any p = true) :
    ∃ s, Reaches step allowed first s ∧ p s = true := by
  obtain ⟨s, hs, hp⟩ := (Option.any_eq_true _ _).mp hperform
  exact ⟨s, Reaches.start.perform hs, hp⟩

end Reame.Interleaving
