import Mathlib.Logic.Relation
import Mathlib.Order.Basic
import Mathlib.Tactic.Common

/-!
# Loops that may leave with a result

A loop body is a function `step : σ → σ ⊕ ρ`: it either yields the next loop
state or leaves the loop with a result.  `run` executes it with fuel, `Exits` is
the same thing without fuel, and `Visits` lists the states the loop starts an
iteration in.

The rules for such loops are `Visits.invariant` (what holds of every state an
iteration starts in), `exists_exits_of_measure` (an invariant and a measure that
falls at every iteration make the loop leave) and `Exits.simulate` (a loop whose
iterations each stand for some iterations of an abstract loop leaves as that one
does).
-/

namespace Reame.Loop

variable {σ ρ : Type*} {step : σ → σ ⊕ ρ}

/-- Run `step` for at most `fuel` iterations; `none` when the fuel is used up. -/
def run (step : σ → σ ⊕ ρ) : ℕ → σ → Option ρ
  | 0, _ => none
  | fuel + 1, state =>
      match step state with
      | .inl next => run step fuel next
      | .inr result => some result

/-- The loop started in a state leaves with the given result. -/
inductive Exits (step : σ → σ ⊕ ρ) : σ → ρ → Prop
  | leave {state : σ} {result : ρ} (hstep : step state = .inr result) : Exits step state result
  | next {state after : σ} {result : ρ} (hstep : step state = .inl after)
      (hrest : Exits step after result) : Exits step state result

/-- The loop started in `first` starts some iteration in `state`. -/
inductive Visits (step : σ → σ ⊕ ρ) (first : σ) : σ → Prop
  | start : Visits step first first
  | next {state after : σ} (hvisit : Visits step first state) (hstep : step state = .inl after) :
      Visits step first after

theorem run_succ_of_next {state after : σ} (hstep : step state = .inl after) (fuel : ℕ) :
    run step (fuel + 1) state = run step fuel after := by
  simp [run, hstep]

theorem run_succ_of_leave {state : σ} {result : ρ} (hstep : step state = .inr result)
    (fuel : ℕ) : run step (fuel + 1) state = some result := by
  simp [run, hstep]

theorem Exits.of_run {fuel : ℕ} {state : σ} {result : ρ}
    (hrun : run step fuel state = some result) : Exits step state result := by
  induction fuel generalizing state with
  | zero => simp [run] at hrun
  | succ fuel ih =>
      cases hstep : step state with
      | inl after =>
          rw [run_succ_of_next hstep] at hrun
          exact .next hstep (ih hrun)
      | inr leave =>
          rw [run_succ_of_leave hstep, Option.some.injEq] at hrun
          exact .leave (hrun ▸ hstep)

/-- A loop that leaves does so for every large enough fuel. -/
theorem Exits.eventually_run {state : σ} {result : ρ} (hexits : Exits step state result) :
    ∃ enough, ∀ fuel ≥ enough, run step fuel state = some result := by
  induction hexits with
  | leave hstep =>
      refine ⟨1, fun fuel hfuel => ?_⟩
      obtain ⟨fuel, rfl⟩ : ∃ k, fuel = k + 1 := ⟨fuel - 1, by omega⟩
      exact run_succ_of_leave hstep fuel
  | next hstep _ ih =>
      obtain ⟨enough, henough⟩ := ih
      refine ⟨enough + 1, fun fuel hfuel => ?_⟩
      obtain ⟨fuel, rfl⟩ : ∃ k, fuel = k + 1 := ⟨fuel - 1, by omega⟩
      rw [run_succ_of_next hstep]
      exact henough fuel (by omega)

/-- A loop leaves with one result at most. -/
theorem Exits.unique {state : σ} {first second : ρ} (hfirst : Exits step state first)
    (hsecond : Exits step state second) : first = second := by
  induction hfirst with
  | leave hstep =>
      cases hsecond with
      | leave hstep' => rw [hstep] at hstep'; exact Sum.inr.inj hstep'
      | next hstep' _ => rw [hstep] at hstep'; cases hstep'
  | next hstep _ ih =>
      cases hsecond with
      | leave hstep' => rw [hstep] at hstep'; cases hstep'
      | next hstep' hrest =>
          rw [hstep] at hstep'
          cases hstep'
          exact ih hrest

theorem Visits.trans {first middle last : σ} (hfirst : Visits step first middle)
    (hlast : Visits step middle last) : Visits step first last := by
  induction hlast with
  | start => exact hfirst
  | next _ hstep ih => exact .next ih hstep

/-- Going back one iteration: the states visited from `after` are visited from
the state before it. -/
theorem Visits.of_next {state after last : σ} (hstep : step state = .inl after)
    (hvisit : Visits step after last) : Visits step state last :=
  (Visits.next .start hstep).trans hvisit

/-- A loop that leaves does so in some last iteration. -/
theorem Exits.last {first : σ} {result : ρ} (hexits : Exits step first result) :
    ∃ state, Visits step first state ∧ step state = .inr result := by
  induction hexits with
  | leave hstep => exact ⟨_, .start, hstep⟩
  | next hstep _ ih =>
      obtain ⟨state, hvisit, hleave⟩ := ih
      exact ⟨state, hvisit.of_next hstep, hleave⟩

/-- What holds at the start and survives every iteration holds at the start of
every iteration. -/
theorem Visits.invariant {first state : σ} (hvisit : Visits step first state) (Inv : σ → Prop)
    (hstart : Inv first)
    (hnext : ∀ before after, Inv before → step before = .inl after → Inv after) : Inv state := by
  induction hvisit with
  | start => exact hstart
  | next _ hstep ih => exact hnext _ _ ih hstep

/-- A loop whose iterations keep an invariant and lower a measure leaves. -/
theorem exists_exits_of_measure (Inv : σ → Prop) (measure : σ → ℕ)
    (hnext : ∀ before after, Inv before → step before = .inl after →
      Inv after ∧ measure after < measure before)
    {state : σ} (hstate : Inv state) : ∃ result, Exits step state result := by
  induction hm : measure state using Nat.strongRecOn generalizing state with
  | _ m ih =>
      cases hstep : step state with
      | inr result => exact ⟨result, .leave hstep⟩
      | inl after =>
          obtain ⟨hafter, hlt⟩ := hnext state after hstate hstep
          obtain ⟨result, hresult⟩ := ih (measure after) (hm ▸ hlt) hafter rfl
          exact ⟨result, .next hstep hresult⟩

/-- Results propagate backwards along visited states. -/
theorem Exits.of_visits {first state : σ} {result : ρ} (hvisit : Visits step first state)
    (hexits : Exits step state result) : Exits step first result := by
  induction hvisit with
  | start => exact hexits
  | next _ hstep ih => exact ih (.next hstep hexits)

/-- A loop that leaves does so from every state it visits. -/
theorem Exits.after_visits {first state : σ} {result : ρ} (hexits : Exits step first result)
    (hvisit : Visits step first state) : Exits step state result := by
  induction hvisit with
  | start => exact hexits
  | next _ hstep ih =>
      cases ih with
      | leave hleave =>
          rw [hleave] at hstep
          cases hstep
      | next hstep' hrest =>
          rw [hstep'] at hstep
          cases hstep
          exact hrest

/-- The simulation rule.  If every concrete iteration can be replayed by some number
of abstract iterations, possibly none, the abstract loop leaves with the image of the
concrete result. -/
theorem Exits.simulate {τ υ : Type*} (abstractStep : τ → τ ⊕ υ) (Inv : σ → Prop)
    (abstract : σ → τ) (abstractResult : ρ → υ)
    (hnext : ∀ before after, Inv before → step before = .inl after → Inv after ∧
      ∀ out, Exits abstractStep (abstract after) out → Exits abstractStep (abstract before) out)
    (hleave : ∀ state result, Inv state → step state = .inr result →
      Exits abstractStep (abstract state) (abstractResult result))
    {state : σ} {result : ρ} (hexits : Exits step state result) (hstate : Inv state) :
    Exits abstractStep (abstract state) (abstractResult result) := by
  induction hexits with
  | leave hstep => exact hleave _ _ hstate hstep
  | next hstep _ ih =>
      obtain ⟨hafter, hback⟩ := hnext _ _ hstate hstep
      exact hback _ (ih hafter)

end Reame.Loop
