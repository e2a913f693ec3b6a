import Mathlib.Tactic

/-!
# Code that keeps a state and may throw

`Code ε σ α` is imperative code over a state `σ` that returns an `α` or throws an `ε`.  A
throw does not undo what was done before it, and `try` goes on in the state of the throw.

`wp` is the condition under which a run of the code ends well, with one postcondition for a
return and one for a throw.  Code is deterministic, so the rules are equivalences.  `Keeps` is
what code does not touch either way, and has a rule for each construct.
-/

namespace Reame.Throwing

/-- Code over a state that returns or throws. -/
def Code (ε σ α : Type) := σ → Except ε α × σ

variable {ε σ α β : Type}

instance : Monad (Code ε σ) where
  pure a := fun s => (.ok a, s)
  bind m f := fun s =>
    match m s with
    | (.ok a, after) => f a after
    | (.error e, after) => (.error e, after)

instance : MonadExceptOf ε (Code ε σ) where
  throw e := fun s => (.error e, s)
  tryCatch m handler := fun s =>
    match m s with
    | (.ok a, after) => (.ok a, after)
    | (.error e, after) => handler e after

namespace Code

/-- Code that only changes the state. -/
def update (f : σ → σ) : Code ε σ Unit := fun s => (.ok (), f s)

/-- Code that does not touch the state. -/
def ofExcept (f : σ → Except ε α) : Code ε σ α := fun s => (f s, s)

/-- Code that depends on the state it starts in. -/
def reading (f : σ → Code ε σ α) : Code ε σ α := fun s => f s s

/-- Leave a scope: `cleanup` runs after a return and after a throw. -/
def cleanly (cleanup : σ → σ) (m : Code ε σ α) : Code ε σ α := fun s =>
  match m s with
  | (result, after) => (result, cleanup after)

/-- The code ends in `post` when it returns and in `thrown` when it throws. -/
def wp (m : Code ε σ α) (s : σ) (post : α → σ → Prop) (thrown : ε → σ → Prop) : Prop :=
  match m s with
  | (.ok a, after) => post a after
  | (.error e, after) => thrown e after

/-- What was thrown. -/
def raised : Except ε α → Option ε
  | .ok _ => none
  | .error e => some e

variable {post : α → σ → Prop} {thrown : ε → σ → Prop} {s : σ}

@[simp] theorem wp_pure (a : α) : wp (pure a : Code ε σ α) s post thrown ↔ post a s := Iff.rfl

@[simp] theorem wp_throw (e : ε) : wp (throw e : Code ε σ α) s post thrown ↔ thrown e s := Iff.rfl

@[simp] theorem wp_bind (m : Code ε σ β) (f : β → Code ε σ α) :
    wp (m >>= f) s post thrown ↔ wp m s (fun b after => wp (f b) after post thrown) thrown := by
  rcases hm : m s with ⟨result, after⟩
  cases result <;> simp only [wp, Bind.bind, hm]

@[simp] theorem wp_tryCatch (m : Code ε σ α) (handler : ε → Code ε σ α) :
    wp (tryCatch m handler) s post thrown ↔
      wp m s post fun e after => wp (handler e) after post thrown := by
  rcases hm : m s with ⟨result, after⟩
  cases result <;> simp only [wp, MonadExcept.tryCatch, tryCatchThe, MonadExceptOf.tryCatch, hm]

@[simp] theorem wp_update {post : Unit → σ → Prop} (f : σ → σ) :
    wp (update f : Code ε σ Unit) s post thrown ↔ post () (f s) := Iff.rfl

@[simp] theorem wp_reading (f : σ → Code ε σ α) :
    wp (reading f) s post thrown ↔ wp (f s) s post thrown := Iff.rfl

@[simp] theorem wp_cleanly (cleanup : σ → σ) (m : Code ε σ α) :
    wp (cleanly cleanup m) s post thrown ↔
      wp m s (fun a after => post a (cleanup after)) fun e after => thrown e (cleanup after) := by
  rcases hm : m s with ⟨result, after⟩
  cases result <;> simp only [wp, cleanly, hm]

theorem wp_ofExcept (f : σ → Except ε α) :
    wp (ofExcept f) s post thrown ↔
      match f s with
      | .ok a => post a s
      | .error e => thrown e s := by
  simp only [wp, ofExcept]
  cases f s <;> rfl

theorem bind_of_ok {m : Code ε σ β} {b : β} {after : σ} (hm : m s = (.ok b, after))
    (f : β → Code ε σ α) : (m >>= f) s = f b after := by
  simp only [Bind.bind, hm]

theorem bind_of_error {m : Code ε σ β} {e : ε} {after : σ} (hm : m s = (.error e, after))
    (f : β → Code ε σ α) : (m >>= f) s = (.error e, after) := by
  simp only [Bind.bind, hm]

theorem wp_of_ok {m : Code ε σ α} {a : α} {after : σ} (heq : m s = (.ok a, after)) :
    wp m s post thrown ↔ post a after := by
  simp only [wp, heq]

theorem wp_of_error {m : Code ε σ α} {e : ε} {after : σ} (heq : m s = (.error e, after)) :
    wp m s post thrown ↔ thrown e after := by
  simp only [wp, heq]

/-! ### Invariants -/

/-- The code keeps an invariant, whether it returns or throws. -/
def Keeps (I : σ → Prop) (m : Code ε σ α) : Prop := ∀ s, I s → I (m s).2

variable {I : σ → Prop}

theorem keeps_pure (a : α) : Keeps I (pure a : Code ε σ α) := fun _ hs => hs

theorem keeps_throw (e : ε) : Keeps I (throw e : Code ε σ α) := fun _ hs => hs

theorem keeps_update {f : σ → σ} (hf : ∀ s, I s → I (f s)) :
    Keeps I (update f : Code ε σ Unit) := hf

theorem keeps_ofExcept (f : σ → Except ε α) : Keeps I (ofExcept f) := fun _ hs => hs

theorem Keeps.reading {f : σ → Code ε σ α} (hf : ∀ s, Keeps I (f s)) : Keeps I (reading f) :=
  fun s hs => hf s s hs

theorem Keeps.ite {c : Prop} [Decidable c] {m n : Code ε σ α} (hm : c → Keeps I m)
    (hn : ¬ c → Keeps I n) : Keeps I (if c then m else n) := by
  by_cases hc : c
  · rw [if_pos hc]
    exact hm hc
  · rw [if_neg hc]
    exact hn hc

theorem Keeps.bind {m : Code ε σ β} {f : β → Code ε σ α} (hm : Keeps I m)
    (hf : ∀ b, Keeps I (f b)) : Keeps I (m >>= f) := by
  intro s hs
  have hafter := hm s hs
  rcases heq : m s with ⟨result, after⟩
  rw [heq] at hafter
  cases result with
  | ok b =>
      rw [bind_of_ok heq]
      exact hf b after hafter
  | error e =>
      rw [bind_of_error heq]
      exact hafter

theorem Keeps.tryCatch {m : Code ε σ α} {handler : ε → Code ε σ α} (hm : Keeps I m)
    (hhandler : ∀ e, Keeps I (handler e)) : Keeps I (tryCatch m handler) := by
  intro s hs
  have hafter := hm s hs
  rcases heq : m s with ⟨result, after⟩
  rw [heq] at hafter
  simp only [MonadExcept.tryCatch, tryCatchThe, MonadExceptOf.tryCatch, heq]
  cases result with
  | ok a => exact hafter
  | error e => exact hhandler e after hafter

theorem Keeps.cleanly {cleanup : σ → σ} {m : Code ε σ α} (hm : Keeps I m)
    (hcleanup : ∀ s, I s → I (cleanup s)) : Keeps I (cleanly cleanup m) :=
  fun s hs => hcleanup _ (hm s hs)

end Code

end Reame.Throwing
