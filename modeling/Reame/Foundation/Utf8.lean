import Mathlib.Data.List.Basic
import Mathlib.Tactic

/-!
# UTF-8

A UTF-8 decoder reads a byte string from left to right.  Between two characters it accepts
any lead byte; within one it expects so many further bytes, the next of them in a range
that excludes overlong forms, surrogates and code points above U+10FFFF.  `fault` is the
first thing it objects to, and a text without a fault is `Valid`.

A valid text ends between two characters, so whatever is put behind it is as valid as it
was alone (`valid_append_iff`).
-/

namespace Reame.Utf8

/-- What the decoder expects: a lead byte, or `more + 1` continuation bytes with the next
of them between `low` and `high`. -/
inductive State
  | accept
  | within (more : ℕ) (low high : UInt8)
deriving DecidableEq, Repr

/-- What the decoder objects to. -/
inductive Fault
  | invalidByte (index : ℕ) (byte : UInt8)
  | incomplete (last : UInt8)
deriving DecidableEq, Repr

/-- One byte; `none` when it cannot come next. -/
def step : State → UInt8 → Option State
  | .accept, b =>
      if b < 0x80 then some .accept
      else if b < 0xC2 then none
      else if b < 0xE0 then some (.within 0 0x80 0xBF)
      else if b = 0xE0 then some (.within 1 0xA0 0xBF)
      else if b = 0xED then some (.within 1 0x80 0x9F)
      else if b < 0xF0 then some (.within 1 0x80 0xBF)
      else if b = 0xF0 then some (.within 2 0x90 0xBF)
      else if b < 0xF4 then some (.within 2 0x80 0xBF)
      else if b = 0xF4 then some (.within 2 0x80 0x8F)
      else none
  | .within more low high, b =>
      if low ≤ b ∧ b ≤ high then
        match more with
        | 0 => some .accept
        | more + 1 => some (.within more 0x80 0xBF)
      else none

/-- Read a text whose first byte has the given index. -/
def scan : State → ℕ → List UInt8 → Except Fault State
  | state, _, [] => .ok state
  | state, index, b :: rest =>
      match step state b with
      | none => .error (.invalidByte index b)
      | some next => scan next (index + 1) rest

/-- The first fault of a text. -/
def fault (text : List UInt8) : Option Fault :=
  match scan .accept 0 text with
  | .error fault => some fault
  | .ok .accept => none
  | .ok (.within ..) => some (.incomplete (text.getLastD 0))

/-- A text without a fault. -/
def Valid (text : List UInt8) : Prop := fault text = none

instance (text : List UInt8) : Decidable (Valid text) :=
  inferInstanceAs (Decidable (_ = _))

/-- ASCII texts. -/
def Ascii (text : List UInt8) : Prop := ∀ b ∈ text, b < 0x80

instance (text : List UInt8) : Decidable (Ascii text) :=
  inferInstanceAs (Decidable (∀ b ∈ text, b < 0x80))

theorem valid_iff {text : List UInt8} : Valid text ↔ scan .accept 0 text = .ok .accept := by
  unfold Valid fault
  split <;> simp_all

theorem scan_append (state : State) (index : ℕ) (text more : List UInt8) :
    scan state index (text ++ more) =
      (scan state index text).bind fun next => scan next (index + text.length) more := by
  induction text generalizing state index with
  | nil => rfl
  | cons b rest ih =>
      simp only [List.cons_append, scan]
      cases step state b with
      | none => rfl
      | some next =>
          dsimp only
          rw [ih, List.length_cons, Nat.add_assoc, Nat.add_comm 1]

/-- The index only shows up in a fault. -/
theorem scan_ok_index {state last : State} {text : List UInt8} (index other : ℕ)
    (hok : scan state index text = .ok last) : scan state other text = .ok last := by
  induction text generalizing state index other with
  | nil => exact hok
  | cons b rest ih =>
      rw [scan] at hok ⊢
      cases hstep : step state b with
      | none => simp [hstep] at hok
      | some next =>
          simp only [hstep] at hok ⊢
          exact ih _ _ hok

theorem scan_ascii {text : List UInt8} (htext : Ascii text) (index : ℕ) :
    scan .accept index text = .ok .accept := by
  induction text generalizing index with
  | nil => rfl
  | cons b rest ih =>
      have hb : step .accept b = some .accept := if_pos (htext b (List.mem_cons_self ..))
      rw [scan, hb]
      exact ih (fun b' hb' => htext b' (List.mem_cons_of_mem _ hb')) _

theorem Ascii.valid {text : List UInt8} (htext : Ascii text) : Valid text :=
  valid_iff.mpr (scan_ascii htext 0)

theorem Ascii.append {text more : List UInt8} (htext : Ascii text) (hmore : Ascii more) :
    Ascii (text ++ more) := by
  intro b hb
  rcases List.mem_append.mp hb with hleft | hright
  · exact htext b hleft
  · exact hmore b hright

/-- Behind a valid text everything is as valid as it was alone. -/
theorem valid_append_iff {text : List UInt8} (htext : Valid text) (more : List UInt8) :
    Valid (text ++ more) ↔ Valid more := by
  rw [valid_iff, valid_iff, scan_append, valid_iff.mp htext]
  exact ⟨scan_ok_index _ _, scan_ok_index _ _⟩

end Reame.Utf8
