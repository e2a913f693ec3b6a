import Mathlib.Data.List.Basic
import Mathlib.Tactic

/-!
# Parsing a stream that arrives in pieces

An incremental parser reads one item from the front of its buffer, asks for more input, or
rejects what it sees.  It is *settled* if further input changes neither an item nor a
rejection: what it decides on a part of the input it decides on all of it.

`drain` reads items until the parser asks for more or rejects.  The rule is `drain_append`:
draining what was left together with the next piece is draining both pieces at once.
-/

namespace Reame.Incremental

variable {β ι ε : Type*}

/-- What a parser makes of its buffer. -/
inductive Step (β ι ε : Type*)
  | more
  | item (value : ι) (rest : List β)
  | reject (error : ε)
deriving DecidableEq, Repr

/-- Go on with what an item leaves. -/
def Step.andThen {κ : Type*} (step : Step β ι ε) (next : ι → List β → Step β κ ε) : Step β κ ε :=
  match step with
  | .more => .more
  | .item value rest => next value rest
  | .reject error => .reject error

/-- What has been decided does not change with more input, and an item is read off the
input. -/
structure Settled (parse : List β → Step β ι ε) : Prop where
  item_le : ∀ {input value rest}, parse input = .item value rest → rest.length ≤ input.length
  item_append : ∀ {input value rest}, parse input = .item value rest → ∀ later,
    parse (input ++ later) = .item value (rest ++ later)
  reject_append : ∀ {input error}, parse input = .reject error → ∀ later,
    parse (input ++ later) = .reject error

theorem settled_item (value : ι) : Settled fun input : List β => (.item value input : Step β ι ε) where
  item_le := by
    rintro input _ rest ⟨⟩
    exact le_rfl
  item_append := by
    rintro input _ rest ⟨⟩ later
    rfl
  reject_append := by
    rintro input error ⟨⟩

theorem settled_reject (error : ε) :
    Settled fun _ : List β => (.reject error : Step β ι ε) where
  item_le := by
    rintro input value rest ⟨⟩
  item_append := by
    rintro input value rest ⟨⟩
  reject_append := by
    rintro input _ ⟨⟩ later
    rfl

/-- Where all of the input is one item, less than all of it asks for more. -/
theorem Settled.more_of_item {parse : List β → Step β ι ε} (hparse : Settled parse)
    {part later : List β} {value : ι} (hitem : parse (part ++ later) = .item value [])
    (hlater : later ≠ []) : parse part = .more := by
  cases hpart : parse part with
  | more => rfl
  | item first rest =>
      rw [hparse.item_append hpart later, Step.item.injEq] at hitem
      exact absurd (List.append_eq_nil_iff.mp hitem.2).2 hlater
  | reject error =>
      rw [hparse.reject_append hpart later] at hitem
      cases hitem

/-- One parser after another. -/
theorem Settled.andThen {κ : Type*} {parse : List β → Step β ι ε}
    {next : ι → List β → Step β κ ε} (hparse : Settled parse) (hnext : ∀ value, Settled (next value)) :
    Settled fun input => (parse input).andThen next where
  item_le := by
    intro input value rest hitem
    cases hfirst : parse input with
    | more => simp [hfirst, Step.andThen] at hitem
    | reject error => simp [hfirst, Step.andThen] at hitem
    | item first middle =>
        simp only [hfirst, Step.andThen] at hitem
        exact ((hnext first).item_le hitem).trans (hparse.item_le hfirst)
  item_append := by
    intro input value rest hitem later
    cases hfirst : parse input with
    | more => simp [hfirst, Step.andThen] at hitem
    | reject error => simp [hfirst, Step.andThen] at hitem
    | item first middle =>
        simp only [hfirst, Step.andThen] at hitem
        simp only [hparse.item_append hfirst later, Step.andThen]
        exact (hnext first).item_append hitem later
  reject_append := by
    intro input error hreject later
    cases hfirst : parse input with
    | more => simp [hfirst, Step.andThen] at hreject
    | reject first =>
        simp only [hfirst, Step.andThen] at hreject
        simpa only [hparse.reject_append hfirst later, Step.andThen] using hreject
    | item first middle =>
        simp only [hfirst, Step.andThen] at hreject
        simp only [hparse.item_append hfirst later, Step.andThen]
        exact (hnext first).reject_append hreject later

/-- A parser that needs a first entry and goes on from there consumes something with every
item. -/
theorem Settled.ofHead {parse : List β → Step β ι ε} (hnil : parse [] = .more)
    (hcons : ∀ b, Settled fun rest => parse (b :: rest)) :
    Settled parse ∧
      ∀ {input value rest}, parse input = .item value rest → rest.length < input.length := by
  refine ⟨⟨?_, ?_, ?_⟩, ?_⟩
  · intro input value rest hitem
    cases input with
    | nil => simp [hnil] at hitem
    | cons b input => exact ((hcons b).item_le hitem).trans (Nat.le_succ _)
  · intro input value rest hitem later
    cases input with
    | nil => simp [hnil] at hitem
    | cons b input => exact (hcons b).item_append hitem later
  · intro input error hreject later
    cases input with
    | nil => simp [hnil] at hreject
    | cons b input => exact (hcons b).reject_append hreject later
  · intro input value rest hitem
    cases input with
    | nil => simp [hnil] at hitem
    | cons b input => exact Nat.lt_succ_of_le ((hcons b).item_le hitem)

/-- A settled parser that consumes something with every item. -/
structure Parser (β ι ε : Type*) where
  parse : List β → Step β ι ε
  settled : Settled parse
  item_lt : ∀ {input value rest}, parse input = .item value rest → rest.length < input.length

/-- What draining a buffer gives: the items, the input that is left, and the rejection. -/
@[ext]
structure Drained (β ι ε : Type*) where
  items : List ι
  rest : List β
  error : Option ε
deriving DecidableEq, Repr

/-- Put items in front. -/
def Drained.behind (first : List ι) (drained : Drained β ι ε) : Drained β ι ε :=
  { drained with items := first ++ drained.items }

/-- Read items as long as the fuel lasts. -/
def drainFrom (parse : List β → Step β ι ε) : ℕ → List β → Drained β ι ε
  | 0, input => ⟨[], input, none⟩
  | fuel + 1, input =>
      match parse input with
      | .more => ⟨[], input, none⟩
      | .item value rest => (drainFrom parse fuel rest).behind [value]
      | .reject error => ⟨[], input, some error⟩

namespace Parser

variable (parser : Parser β ι ε)

/-- Read items until the parser asks for more or rejects. -/
def drain (input : List β) : Drained β ι ε := drainFrom parser.parse (input.length + 1) input

/-- More fuel than there is input makes no difference. -/
theorem drainFrom_eq {fuel : ℕ} {input : List β} (hfuel : input.length < fuel) :
    drainFrom parser.parse fuel input = parser.drain input := by
  induction fuel using Nat.strong_induction_on generalizing input with
  | _ fuel ih =>
      obtain ⟨fuel, rfl⟩ : ∃ less, fuel = less + 1 := ⟨fuel - 1, by omega⟩
      rw [drain, drainFrom, drainFrom]
      cases hparse : parser.parse input with
      | more => rfl
      | reject error => rfl
      | item value rest =>
          have hlt := parser.item_lt hparse
          by_cases heq : fuel = input.length
          · rw [heq]
          · have hleft : drainFrom parser.parse fuel rest = parser.drain rest :=
              ih fuel (by omega) (by omega)
            have hright : drainFrom parser.parse input.length rest = parser.drain rest :=
              ih input.length (by omega) (by omega)
            simp only [hleft, hright]

theorem drain_of_more {input : List β} (hparse : parser.parse input = .more) :
    parser.drain input = ⟨[], input, none⟩ := by
  rw [drain, drainFrom, hparse]

theorem drain_of_item {input rest : List β} {value : ι}
    (hparse : parser.parse input = .item value rest) :
    parser.drain input = (parser.drain rest).behind [value] := by
  rw [drain, drainFrom, hparse]
  exact congrArg (Drained.behind [value]) (parser.drainFrom_eq (parser.item_lt hparse))

theorem drain_of_reject {input : List β} {error : ε} (hparse : parser.parse input = .reject error) :
    parser.drain input = ⟨[], input, some error⟩ := by
  rw [drain, drainFrom, hparse]

/-- Draining goes on where it stopped. -/
theorem drain_append {input : List β} (hnone : (parser.drain input).error = none)
    (later : List β) :
    parser.drain (input ++ later) =
      (parser.drain ((parser.drain input).rest ++ later)).behind (parser.drain input).items := by
  induction hlength : input.length using Nat.strong_induction_on generalizing input with
  | _ length ih =>
      subst hlength
      cases hparse : parser.parse input with
      | more =>
          rw [parser.drain_of_more hparse]
          rfl
      | reject error =>
          rw [parser.drain_of_reject hparse] at hnone
          cases hnone
      | item value rest =>
          rw [parser.drain_of_item hparse] at hnone ⊢
          rw [parser.drain_of_item (parser.settled.item_append hparse later),
            ih _ (parser.item_lt hparse) hnone rfl]
          rfl

/-- After a rejection nothing changes any more. -/
theorem drain_append_of_reject {input : List β} {error : ε}
    (hsome : (parser.drain input).error = some error) (later : List β) :
    parser.drain (input ++ later) =
      ⟨(parser.drain input).items, (parser.drain input).rest ++ later, some error⟩ := by
  induction hlength : input.length using Nat.strong_induction_on generalizing input with
  | _ length ih =>
      subst hlength
      cases hparse : parser.parse input with
      | more =>
          rw [parser.drain_of_more hparse] at hsome
          cases hsome
      | reject found =>
          rw [parser.drain_of_reject hparse] at hsome ⊢
          rw [parser.drain_of_reject (parser.settled.reject_append hparse later)]
          exact congrArg _ hsome
      | item value rest =>
          rw [parser.drain_of_item hparse] at hsome ⊢
          rw [parser.drain_of_item (parser.settled.item_append hparse later),
            ih _ (parser.item_lt hparse) hsome rfl]
          rfl

/-- What is left asks for more. -/
theorem drain_rest {input : List β} (hnone : (parser.drain input).error = none) :
    parser.drain (parser.drain input).rest = ⟨[], (parser.drain input).rest, none⟩ := by
  have hsame := parser.drain_append hnone []
  simp only [List.append_nil, Drained.behind] at hsame
  have hitems := congrArg Drained.items hsame
  have hrest := congrArg Drained.rest hsame
  have herror := congrArg Drained.error hsame
  simp only [List.self_eq_append_right] at hitems
  exact Drained.ext hitems hrest.symm (herror.symm.trans hnone)

end Parser

end Reame.Incremental
