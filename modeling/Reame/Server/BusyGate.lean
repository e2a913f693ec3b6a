import Reame.Foundation.Interleaving
import Reame.Server.ApiHandler

/-!
# The gate in front of the engine

Requests for a generation come in on threads of their own.  Each constructs a `BusyGuard`: it
raises the counter of active generations, and lowers it again at once when it finds that it is
one too many.  In between the counter counts a request that is not served, and another request
may be refused because of it.

A guard is held from its `fetch_add` on if that has found the counter below the maximum.  What
the gate promises of a step is `Sound`, and the steps that keep the promise are those that find
the gate `Uncrowded` (`sound_iff_uncrowded`): no refused guard that is still to take back its
increment makes the difference.
-/

namespace Reame.Server

variable {ι : Type*} [DecidableEq ι]

/-- `active_generations`, the requests that hold a guard, and those whose guard is refused but
has not lowered the counter yet. -/
structure BusyGate (ι : Type*) where
  active : ℤ
  held : Finset ι
  refused : Finset ι

namespace BusyGate

/-- The atomic steps of a request: the `fetch_add` of the constructor with the comparison after
it, the `fetch_sub` of a refused guard, and that of the destructor. -/
inductive Action (ι : Type*)
  | construct (request : ι)
  | lower (request : ι)
  | destroy (request : ι)

/-- Before any request. -/
def initial : BusyGate ι := ⟨0, ∅, ∅⟩

/-- One step of the gate with room for `max`; the counter is an `int`, which wraps. -/
def step (max : ℤ) (gate : BusyGate ι) : Action ι → Option (BusyGate ι)
  | .construct request =>
      if request ∈ gate.held ∨ request ∈ gate.refused then none
      else if max ≤ gate.active then
        some ⟨toInt32 (gate.active + 1), gate.held, insert request gate.refused⟩
      else some ⟨toInt32 (gate.active + 1), insert request gate.held, gate.refused⟩
  | .lower request =>
      if request ∈ gate.refused then
        some ⟨toInt32 (gate.active - 1), gate.held, gate.refused.erase request⟩
      else none
  | .destroy request =>
      if request ∈ gate.held then
        some ⟨toInt32 (gate.active - 1), gate.held.erase request, gate.refused⟩
      else none

/-! ## What is promised -/

/-- The action is a construction, and it is refused. -/
def Refuses : Action ι → BusyGate ι → Prop
  | .construct request, after => request ∈ after.refused
  | _, _ => False

instance : ∀ (action : Action ι) (after : BusyGate ι), Decidable (Refuses action after)
  | .construct request, after => inferInstanceAs (Decidable (request ∈ after.refused))
  | .lower _, _ | .destroy _, _ => inferInstanceAs (Decidable False)

/-- At most `max` guards are held, the counter is zero without a guard, and a construction is
refused only while `max` guards are held. -/
structure Sound (max : ℤ) (gate : BusyGate ι) (action : Action ι) (after : BusyGate ι) : Prop where
  bounded : after.held.card ≤ max
  idle : after.held = ∅ → after.refused = ∅ → after.active = 0
  full : Refuses action after → max ≤ gate.held.card

instance (max : ℤ) (gate : BusyGate ι) (action : Action ι) (after : BusyGate ι) :
    Decidable (Sound max gate action after) :=
  decidable_of_iff ((after.held.card : ℤ) ≤ max ∧
      (after.held = ∅ → after.refused = ∅ → after.active = 0) ∧
      (Refuses action after → max ≤ gate.held.card))
    ⟨fun h => ⟨h.1, h.2.1, h.2.2⟩, fun h => ⟨h.bounded, h.idle, h.full⟩⟩

/-- The guards that are held, and the refused ones that are still raised, come to `max` exactly
if those that are held do. -/
def Uncrowded (max : ℤ) (gate : BusyGate ι) : Prop :=
  max ≤ toInt32 (gate.held.card + gate.refused.card) ↔ max ≤ gate.held.card

instance (max : ℤ) (gate : BusyGate ι) : Decidable (Uncrowded max gate) :=
  inferInstanceAs (Decidable (_ ↔ _))

/-- A construction finds the gate uncrowded. -/
def FindsUncrowded (max : ℤ) (gate : BusyGate ι) : Action ι → BusyGate ι → Prop
  | .construct _, _ => Uncrowded max gate
  | _, _ => True

instance (max : ℤ) (gate : BusyGate ι) :
    ∀ (action : Action ι) (after : BusyGate ι), Decidable (FindsUncrowded max gate action after)
  | .construct _, _ => inferInstanceAs (Decidable (Uncrowded max gate))
  | .lower _, _ | .destroy _, _ => inferInstanceAs (Decidable True)

omit [DecidableEq ι] in
/-- Short of an overflow: the gate is full, or has room even for the refused guards. -/
theorem uncrowded_iff {max : ℤ} {gate : BusyGate ι} (hheld : gate.held.card ≤ max)
    (hfew : (gate.held.card + gate.refused.card : ℤ) < 2 ^ 31) :
    Uncrowded max gate ↔
      (gate.held.card : ℤ) = max ∨ (gate.held.card + gate.refused.card : ℤ) < max := by
  have hnonneg : -2 ^ 31 ≤ (gate.held.card + gate.refused.card : ℤ) := by omega
  rw [Uncrowded, toInt32_of_mem hnonneg hfew]
  omega

/-! ## Runs -/

/-- What holds between the steps: the counter counts both kinds of guards. -/
structure Counted (max : ℤ) (gate : BusyGate ι) : Prop where
  active : gate.active = toInt32 (gate.held.card + gate.refused.card)
  bounded : gate.held.card ≤ max

omit [DecidableEq ι] in
theorem counted_initial {max : ℤ} (hmax : 0 ≤ max) : Counted max (initial : BusyGate ι) where
  active := by simp [initial, toInt32]
  bounded := hmax

theorem toInt32_toInt32_add (n k : ℤ) : toInt32 (toInt32 n + k) = toInt32 (n + k) :=
  Int.bmod_add_bmod

/-- The four things a step can do. -/
theorem step_cases {max : ℤ} {gate after : BusyGate ι} {action : Action ι}
    (hstep : step max gate action = some after) :
    (∃ request, action = .construct request ∧ request ∉ gate.refused ∧ max ≤ gate.active ∧
      after = ⟨toInt32 (gate.active + 1), gate.held, insert request gate.refused⟩) ∨
    (∃ request, action = .construct request ∧ request ∉ gate.held ∧ request ∉ gate.refused ∧
      gate.active < max ∧
      after = ⟨toInt32 (gate.active + 1), insert request gate.held, gate.refused⟩) ∨
    (∃ request ∈ gate.refused, action = .lower request ∧
      after = ⟨toInt32 (gate.active - 1), gate.held, gate.refused.erase request⟩) ∨
    ∃ request ∈ gate.held, action = .destroy request ∧
      after = ⟨toInt32 (gate.active - 1), gate.held.erase request, gate.refused⟩ := by
  cases action with
  | construct request =>
      rw [step] at hstep
      split_ifs at hstep with hfresh hfull
      · obtain ⟨-, hrefused⟩ := not_or.mp hfresh
        exact .inl ⟨request, rfl, hrefused, hfull, (Option.some.inj hstep).symm⟩
      · obtain ⟨hheld, hrefused⟩ := not_or.mp hfresh
        exact .inr (.inl ⟨request, rfl, hheld, hrefused, not_le.mp hfull,
          (Option.some.inj hstep).symm⟩)
  | lower request =>
      rw [step] at hstep
      split_ifs at hstep with hrefused
      exact .inr (.inr (.inl ⟨request, hrefused, rfl, (Option.some.inj hstep).symm⟩))
  | destroy request =>
      rw [step] at hstep
      split_ifs at hstep with hheld
      exact .inr (.inr (.inr ⟨request, hheld, rfl, (Option.some.inj hstep).symm⟩))

/-- The counter goes with the guards. -/
theorem Counted.active_step {max : ℤ} {gate after : BusyGate ι} {action : Action ι}
    (hcounted : Counted max gate) (hstep : step max gate action = some after) :
    after.active = toInt32 (after.held.card + after.refused.card) := by
  have hmove : ∀ k n : ℤ, gate.held.card + gate.refused.card + k = n →
      toInt32 (gate.active + k) = toInt32 n := by
    rintro k n rfl
    rw [hcounted.active, toInt32_toInt32_add]
  rcases step_cases hstep with ⟨request, rfl, hrefused, -, rfl⟩ |
    ⟨request, rfl, hheld, -, -, rfl⟩ | ⟨request, hrefused, rfl, rfl⟩ | ⟨request, hheld, rfl, rfl⟩
  · refine hmove 1 _ ?_
    dsimp only
    rw [Finset.card_insert_of_notMem hrefused]
    omega
  · refine hmove 1 _ ?_
    dsimp only
    rw [Finset.card_insert_of_notMem hheld]
    omega
  · refine hmove (-1) _ ?_
    dsimp only
    rw [← Finset.card_erase_add_one hrefused]
    omega
  · refine hmove (-1) _ ?_
    dsimp only
    rw [← Finset.card_erase_add_one hheld]
    omega

/-- A step keeps the promise exactly if a construction finds the gate uncrowded. -/
theorem sound_iff_uncrowded {max : ℤ} {gate after : BusyGate ι} {action : Action ι}
    (hcounted : Counted max gate) (hstep : step max gate action = some after) :
    Sound max gate action after ↔ FindsUncrowded max gate action after := by
  have hactive := hcounted.active
  have hidle : after.held = ∅ → after.refused = ∅ → after.active = 0 := by
    intro hheld hrefused
    rw [hcounted.active_step hstep, hheld, hrefused]
    simp [toInt32]
  have hbounded := hcounted.bounded
  rcases step_cases hstep with ⟨request, rfl, hrefused, hfull, rfl⟩ |
    ⟨request, rfl, hheld, hrefused, hroom, rfl⟩ | ⟨request, hrefused, rfl, rfl⟩ |
    ⟨request, hheld, rfl, rfl⟩
  · -- Refused: the counter has reached the maximum, and the guards that are held must have.
    rw [hactive] at hfull
    constructor
    · intro hsound
      exact iff_of_true hfull (hsound.full (Finset.mem_insert_self ..))
    · intro huncrowded
      exact ⟨hbounded, hidle, fun _ => huncrowded.mp hfull⟩
  · -- Admitted: the counter is below the maximum, and the guards that are held must be.
    rw [hactive] at hroom
    have hcard := Finset.card_insert_of_notMem hheld
    constructor
    · intro hsound
      have hbounded' := hsound.bounded
      dsimp only at hbounded'
      refine iff_of_false (not_le.mpr hroom) ?_
      omega
    · intro huncrowded
      have hless : ¬ max ≤ gate.held.card := fun hfull => not_le.mpr hroom (huncrowded.mpr hfull)
      refine ⟨?_, hidle, fun hmem => absurd hmem hrefused⟩
      dsimp only
      omega
  · exact iff_of_true ⟨hbounded, hidle, False.elim⟩ trivial
  · refine iff_of_true ⟨?_, hidle, False.elim⟩ trivial
    exact (Nat.cast_le.mpr (Finset.card_erase_le)).trans hbounded

/-- A run keeps the promise in all its steps exactly if every construction finds the gate
uncrowded. -/
theorem gate_admits_iff {max : ℤ} (hmax : 0 ≤ max) (actions : List (Action ι)) :
    Interleaving.EachStep (step max) (Sound max) initial actions ↔
      Interleaving.EachStep (step max) (FindsUncrowded max) initial actions := by
  refine Interleaving.eachStep_iff (Counted max) ?_ (counted_initial hmax) actions
  intro gate action after hcounted hstep
  exact ⟨sound_iff_uncrowded hcounted hstep,
    fun hsound => ⟨hcounted.active_step hstep, hsound.bounded⟩⟩

/-- Room for one: it is taken, a second request is refused and lowers the counter. -/
theorem gate_admits_one : Interleaving.EachStep (step 1) (Sound 1) (initial : BusyGate ℕ)
    [.construct 0, .construct 1, .lower 1, .destroy 0, .construct 2] :=
  (gate_admits_iff (by decide) _).mpr (by decide)

/-- Room for one: a second request is refused, and before it lowers the counter again the first
one leaves and a third comes. -/
theorem gate_refuses_when_free : ¬ Interleaving.EachStep (step 1) (Sound 1) (initial : BusyGate ℕ)
    [.construct 0, .construct 1, .destroy 0, .construct 2] := by
  decide

/-! ## The handler -/

/-- The guard of the handler is a construction: it decides as the gate does, and the handler goes
on in the state that a refused guard leaves behind, or with one more generation until it ends. -/
theorem busyGuard_eq_construct {σ Num K : Type} (h : ApiHandler σ Num K)
    (refused admitted : Handler σ Num Unit) (s : HandlerState σ Num) {gate : BusyGate ι}
    (hactive : gate.active = s.activeGenerations) {request : ι} (hheld : request ∉ gate.held)
    (hrefused : request ∉ gate.refused) :
    ∃ after, step h.cfg.maxConcurrentRequests gate (.construct request) = some after ∧
      h.busyGuard refused admitted s =
        if Refuses (.construct request) after then refused s
        else Throwing.Code.cleanly
          (fun s => { s with activeGenerations := s.activeGenerations - 1 }) admitted
          { s with activeGenerations := s.activeGenerations + 1 } := by
  rw [step, if_neg (not_or.mpr ⟨hheld, hrefused⟩), hactive, ApiHandler.busyGuard]
  split
  · exact ⟨_, rfl, (if_pos (Finset.mem_insert_self ..)).symm⟩
  · exact ⟨_, rfl, (if_neg hrefused).symm⟩

end BusyGate

end Reame.Server
