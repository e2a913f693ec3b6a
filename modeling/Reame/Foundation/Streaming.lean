import Reame.Foundation.Loop
import Mathlib.Data.List.Infix
import Mathlib.Tactic

/-!
# Streams and their consumers

A source produces elements one after the other: `next` says which one follows those
delivered so far, or that there is none.  A consumer receives each of them and may end
the stream after any.

What a consumer receives is all there is unless it stops before the last element
(`exits_whole`).
-/

namespace Reame.Streaming

variable {τ : Type*} {next : List τ → Option τ} {goesOn : List τ → Bool}

/-- Deliver the next element, if there is one. -/
def step (next : List τ → Option τ) (goesOn : List τ → Bool) (delivered : List τ) :
    List τ ⊕ List τ :=
  match next delivered with
  | none => .inr delivered
  | some t =>
      if goesOn (delivered ++ [t]) then .inl (delivered ++ [t]) else .inr (delivered ++ [t])

/-- What a consumer has received in the end. -/
abbrev Yields (next : List τ → Option τ) (goesOn : List τ → Bool) (out : List τ) : Prop :=
  Loop.Exits (step next goesOn) [] out

/-- What there is to receive. -/
abbrev Whole (next : List τ → Option τ) (full : List τ) : Prop := Yields next (fun _ => true) full

theorem step_eq_inl {delivered after : List τ} (hstep : step next goesOn delivered = .inl after) :
    ∃ t, next delivered = some t ∧ after = delivered ++ [t] ∧ goesOn (delivered ++ [t]) = true := by
  unfold step at hstep
  split at hstep
  · cases hstep
  · rename_i t hnext
    split at hstep
    · rename_i hgoes
      cases hstep
      exact ⟨t, hnext, rfl, hgoes⟩
    · cases hstep

theorem step_whole_eq_inr {delivered out : List τ}
    (hstep : step next (fun _ => true) delivered = .inr out) :
    next delivered = none ∧ out = delivered := by
  unfold step at hstep
  split at hstep
  · rename_i hnext
    cases hstep
    exact ⟨hnext, rfl⟩
  · cases hstep

theorem step_of_none {delivered : List τ} (hnext : next delivered = none) :
    step next goesOn delivered = .inr delivered := by
  rw [step, hnext]

theorem step_of_some {delivered : List τ} {t : τ} (hnext : next delivered = some t) :
    step next goesOn delivered =
      if goesOn (delivered ++ [t]) then .inl (delivered ++ [t]) else .inr (delivered ++ [t]) := by
  rw [step, hnext]

theorem isPrefix_of_exits {delivered out : List τ}
    (hexits : Loop.Exits (step next goesOn) delivered out) : delivered <+: out := by
  induction hexits with
  | leave hstep =>
      unfold step at hstep
      split at hstep
      · cases hstep
        exact List.prefix_rfl
      · split at hstep
        · cases hstep
        · cases hstep
          exact List.prefix_append _ _
  | next hstep _ ih =>
      obtain ⟨t, -, rfl, -⟩ := step_eq_inl hstep
      exact (List.prefix_append _ _).trans ih

/-- A consumer receives nothing exactly if there is nothing to begin with. -/
theorem eq_nil_iff {out : List τ} (hyields : Yields next goesOn out) :
    out = [] ↔ next [] = none := by
  constructor
  · rintro rfl
    by_contra hsome
    obtain ⟨t, hnext⟩ := Option.ne_none_iff_exists'.mp hsome
    cases hyields with
    | leave hstep =>
        rw [step_of_some hnext] at hstep
        split at hstep <;> cases hstep
    | next hstep hrest =>
        obtain ⟨t', -, rfl, -⟩ := step_eq_inl hstep
        have hlength := (isPrefix_of_exits hrest).length_le
        simp at hlength
  · intro hnext
    exact hyields.unique (.leave (step_of_none hnext))

/-- A consumer that goes on at every proper prefix receives everything. -/
theorem exits_whole {delivered full : List τ}
    (hwhole : Loop.Exits (step next fun _ => true) delivered full)
    (hgoes : ∀ part, part <+: full → delivered.length < part.length → part.length < full.length →
      goesOn part = true) : Loop.Exits (step next goesOn) delivered full := by
  induction hwhole with
  | leave hstep =>
      obtain ⟨hnext, rfl⟩ := step_whole_eq_inr hstep
      exact .leave (step_of_none hnext)
  | @next delivered after full hstep hrest ih =>
      obtain ⟨t, hnext, rfl, -⟩ := step_eq_inl hstep
      have hpre := isPrefix_of_exits hrest
      have hlength := hpre.length_le
      rw [List.length_append, List.length_singleton] at hlength ih
      rcases hlength.lt_or_eq with hshort | hlast
      · have hgoes' := hgoes _ hpre (by simp) (by simpa using hshort)
        refine .next ?_ (ih fun part hpart hlong => hgoes part hpart (by omega))
        rw [step_of_some hnext, if_pos hgoes']
      · obtain rfl : delivered ++ [t] = full := hpre.eq_of_length (by simpa using hlast)
        cases hgoes' : goesOn (delivered ++ [t]) with
        | true =>
            refine .next ?_ (ih fun part _ hlong hshort => by simp at hlong hshort; omega)
            rw [step_of_some hnext, if_pos hgoes']
        | false =>
            refine .leave ?_
            rw [step_of_some hnext, if_neg (by simp [hgoes'])]

end Reame.Streaming
