import Mathlib.Tactic.Common

/-!
# Runs of a machine that takes calls

A machine has a state and takes one call after the other.  A condition on a call may
depend on the state that the call finds; `Throughout` says that every call of a run meets
it.  What one such call preserves, a run preserves (`Throughout.invariant`), and what two
machines keep between them over one call each, they keep over a run
(`Throughout.relation`).
-/

namespace Reame.Runs

variable {σ τ ο : Type*} {step : σ → ο → σ} {allowed : σ → ο → Prop}

/-- The state after the calls. -/
def run (step : σ → ο → σ) (s : σ) (calls : List ο) : σ := calls.foldl step s

/-- Every call meets the condition in the state that it finds. -/
def Throughout (step : σ → ο → σ) (allowed : σ → ο → Prop) : σ → List ο → Prop
  | _, [] => True
  | s, call :: calls => allowed s call ∧ Throughout step allowed (step s call) calls

instance decidableThroughout (step : σ → ο → σ) (allowed : σ → ο → Prop)
    [∀ s call, Decidable (allowed s call)] :
    ∀ (s : σ) (calls : List ο), Decidable (Throughout step allowed s calls)
  | _, [] => inferInstanceAs (Decidable True)
  | s, call :: calls =>
      have := decidableThroughout step allowed (step s call) calls
      inferInstanceAs (Decidable (_ ∧ _))

@[simp] theorem run_nil (s : σ) : run step s [] = s := rfl

@[simp] theorem run_cons (s : σ) (call : ο) (calls : List ο) :
    run step s (call :: calls) = run step (step s call) calls := rfl

theorem run_append (s : σ) (calls later : List ο) :
    run step s (calls ++ later) = run step (run step s calls) later := List.foldl_append

theorem throughout_append {s : σ} {calls later : List ο} :
    Throughout step allowed s (calls ++ later) ↔
      Throughout step allowed s calls ∧ Throughout step allowed (run step s calls) later := by
  induction calls generalizing s with
  | nil => exact (and_iff_right trivial).symm
  | cons call calls ih =>
      show _ ∧ Throughout step allowed (step s call) (calls ++ later) ↔
        (_ ∧ Throughout step allowed (step s call) calls) ∧ _
      rw [ih, and_assoc]
      rfl

/-- Calls that are allowed in any state. -/
theorem throughout_of_forall {calls : List ο} (hcalls : ∀ call ∈ calls, ∀ s, allowed s call) {s : σ} :
    Throughout step allowed s calls := by
  induction calls generalizing s with
  | nil => exact trivial
  | cons call calls ih =>
      exact ⟨hcalls call (List.mem_cons_self ..) s,
        ih fun later hlater => hcalls later (List.mem_cons_of_mem _ hlater)⟩

/-- What one call preserves, a run preserves. -/
theorem Throughout.invariant {Inv : σ → Prop}
    (hstep : ∀ s call, Inv s → allowed s call → Inv (step s call)) {s : σ} (hs : Inv s)
    {calls : List ο} (hcalls : Throughout step allowed s calls) : Inv (run step s calls) := by
  induction calls generalizing s with
  | nil => exact hs
  | cons call calls ih => exact ih (hstep s call hs hcalls.1) hcalls.2

/-- What two machines keep between them over one call each, they keep over a run. -/
theorem Throughout.relation {other : τ → ο → τ} {permitted : τ → ο → Prop} (Rel : σ → τ → Prop)
    (hstep : ∀ s t call, Rel s t → allowed s call → permitted t call →
      Rel (step s call) (other t call)) {s : σ} {t : τ} (hrel : Rel s t) {calls : List ο}
    (hcalls : Throughout step allowed s calls) (hcalls' : Throughout other permitted t calls) :
    Rel (run step s calls) (run other t calls) := by
  induction calls generalizing s t with
  | nil => exact hrel
  | cons call calls ih =>
      exact ih (hstep s t call hrel hcalls.1 hcalls'.1) hcalls.2 hcalls'.2

end Reame.Runs
