import Reame.Core.Conclave
import Reame.Foundation.Loop

/-!
# The last number of a text

`final_number` scans a text by position.  Its inner loop reads a number: digits, of which a
comma may stand before any but the first, and one point that is followed by a digit.  Its
outer loop looks for the next place where a number begins, and keeps the last one read.

What the inner loop does from a position on depends on the rest of the text only:
`readNumber` is the same reader on the rest as a list (`numberFrom_eq`).  On lists it is seen
that

* what is read is well formed, because a sign and a point are only taken before a digit
  (`wellFormed_numberAt`),
* a well-formed text is read as a whole (`readNumber_text`), and
* nothing is read across a blank (`readNumber_blank`).

The outer loop leaves with the last of the numbers read (`exits_finalNumber`), and its result
is a function of what follows any blank behind which there is still a digit
(`finalNumber_append`).
-/

namespace Reame.Core.Conclave

open Wire (isDigit)

/-! ## The loops -/

/-- One round of the inner loop, from a position, `cur` and `seen_dot`. -/
def numberStep (text : Bytes) : ℕ × Bytes × Bool → (ℕ × Bytes × Bool) ⊕ (Bytes × ℕ)
  | (i, cur, seenDot) =>
      match text[i]? with
      | none => .inr (cur, i)
      | some ch =>
          if isDigit ch then .inl (i + 1, cur ++ [ch], seenDot)
          else if ch = chr ',' ∧ digitAt text (i + 1) then .inl (i + 1, cur, seenDot)
          else if ch = chr '.' ∧ seenDot = false ∧ digitAt text (i + 1) then
            .inl (i + 1, cur ++ [chr '.'], true)
          else .inr (cur, i)

/-- The number that begins at a position, and where it ends. -/
def numberAt (text : Bytes) (i : ℕ) : Bytes × ℕ :=
  if signAt text i then numberFrom text text.length (i + 1) [chr '-'] false
  else numberFrom text text.length i [] false

/-- One round of the outer loop, from a position and `last`. -/
def scanStep (text : Bytes) : ℕ × Bytes → (ℕ × Bytes) ⊕ Bytes
  | (i, last) =>
      if text.length ≤ i then .inr last
      else if !digitAt text i && !signAt text i then .inl (i + 1, last)
      else .inl ((numberAt text i).2, (numberAt text i).1)

/-- A number: a minus sign or none, digits, and a fraction or none. -/
structure WellFormed (number : Bytes) (sign digits fraction : Bytes) : Prop where
  text : number = sign ++ digits ++ fraction
  sign : sign = [] ∨ sign = [chr '-']
  digits : digits ≠ [] ∧ ∀ d ∈ digits, isDigit d = true
  fraction : fraction = [] ∨ ∃ decimals, fraction = chr '.' :: decimals ∧ decimals ≠ [] ∧
    ∀ d ∈ decimals, isDigit d = true

/-! ## Reading a number -/

/-- The text begins with a digit. -/
def startsDigit (text : Bytes) : Bool := text.head?.any isDigit

/-- The inner loop on the rest of a text. -/
def readNumber : Bytes → Bool → Bytes → Bytes × Bytes
  | cur, _, [] => (cur, [])
  | cur, seenDot, ch :: rest =>
      if isDigit ch then readNumber (cur ++ [ch]) seenDot rest
      else if ch = chr ',' ∧ startsDigit rest then readNumber cur seenDot rest
      else if ch = chr '.' ∧ seenDot = false ∧ startsDigit rest then
        readNumber (cur ++ [chr '.']) true rest
      else (cur, ch :: rest)

theorem digitAt_eq (text : Bytes) (i : ℕ) : digitAt text i = startsDigit (text.drop i) := by
  rw [digitAt, startsDigit, List.head?_drop]

/-- With fuel for the rest of the text the inner loop is `readNumber` on it. -/
theorem numberFrom_eq (text : Bytes) (fuel i : ℕ) (cur : Bytes) (seenDot : Bool)
    (hfuel : text.length ≤ fuel + i) :
    let read := readNumber cur seenDot (text.drop i)
    (numberFrom text fuel i cur seenDot).1 = read.1 ∧
      text.drop (numberFrom text fuel i cur seenDot).2 = read.2 := by
  induction fuel generalizing i cur seenDot with
  | zero =>
      rw [List.drop_eq_nil_of_le (by omega), readNumber, numberFrom]
      exact ⟨rfl, List.drop_eq_nil_of_le (by dsimp only; omega)⟩
  | succ fuel ih =>
      rw [numberFrom]
      rcases Nat.lt_or_ge i text.length with hi | hi
      · rw [List.drop_eq_getElem_cons hi, List.getElem?_eq_getElem hi, readNumber, digitAt_eq]
        dsimp only
        split_ifs
        · exact ih _ _ _ (by omega)
        · exact ih _ _ _ (by omega)
        · exact ih _ _ _ (by omega)
        · exact ⟨rfl, List.drop_eq_getElem_cons hi⟩
      · rw [List.getElem?_eq_none hi, List.drop_eq_nil_of_le hi, readNumber]
        exact ⟨rfl, rfl⟩

/-- The inner loop leaves. -/
theorem exits_numberFrom (text : Bytes) (fuel i : ℕ) (cur : Bytes) (seenDot : Bool)
    (hfuel : text.length ≤ fuel + i) :
    Loop.Exits (numberStep text) (i, cur, seenDot) (numberFrom text fuel i cur seenDot) := by
  have hover : ∀ {i : ℕ} {cur : Bytes} {seenDot : Bool}, text.length ≤ i →
      numberStep text (i, cur, seenDot) = .inr (cur, i) := by
    intro i cur seenDot hi
    rw [numberStep, List.getElem?_eq_none hi]
  induction fuel generalizing i cur seenDot with
  | zero => exact .leave (hover (by omega))
  | succ fuel ih =>
      rcases Nat.lt_or_ge i text.length with hi | hi
      · rw [numberFrom, List.getElem?_eq_getElem hi]
        dsimp only
        split_ifs with hdigit hcomma hpoint
        · refine .next ?_ (ih _ _ _ (by omega))
          simp [numberStep, hi, hdigit]
        · refine .next ?_ (ih _ _ _ (by omega))
          rw [numberStep, List.getElem?_eq_getElem hi]
          dsimp only
          rw [if_neg hdigit, if_pos hcomma]
        · refine .next ?_ (ih _ _ _ (by omega))
          rw [numberStep, List.getElem?_eq_getElem hi]
          dsimp only
          rw [if_neg hdigit, if_neg hcomma, if_pos hpoint]
        · refine .leave ?_
          rw [numberStep, List.getElem?_eq_getElem hi]
          dsimp only
          rw [if_neg hdigit, if_neg hcomma, if_neg hpoint]
      · rw [numberFrom, List.getElem?_eq_none hi]
        exact .leave (hover hi)

/-- What may follow in a number, behind a digit or a sign or behind the point. -/
def Continues : Bool → Bytes → Prop
  | true, out => ∀ d ∈ out, isDigit d = true
  | false, out => ∃ digits fraction, out = digits ++ fraction ∧ (∀ d ∈ digits, isDigit d = true) ∧
      (fraction = [] ∨ ∃ decimals, fraction = chr '.' :: decimals ∧ decimals ≠ [] ∧
        ∀ d ∈ decimals, isDigit d = true)

theorem Continues.cons {seenDot : Bool} {out : Bytes} {d : UInt8} (hd : isDigit d = true)
    (hout : Continues seenDot out) : Continues seenDot (d :: out) := by
  cases seenDot with
  | true => exact List.forall_mem_cons.mpr ⟨hd, hout⟩
  | false =>
      obtain ⟨digits, fraction, rfl, hdigits, hfraction⟩ := hout
      exact ⟨d :: digits, fraction, rfl, List.forall_mem_cons.mpr ⟨hd, hdigits⟩, hfraction⟩

/-- What is read continues what has been read, and begins with a digit if the text does. -/
theorem readNumber_continues (text cur : Bytes) (seenDot : Bool) :
    ∃ out, (readNumber cur seenDot text).1 = cur ++ out ∧ Continues seenDot out ∧
      (startsDigit text = true → startsDigit out = true) := by
  have hnothing : Continues seenDot [] := by
    cases seenDot with
    | true => exact fun d hd => absurd hd List.not_mem_nil
    | false => exact ⟨[], [], rfl, fun d hd => absurd hd List.not_mem_nil, .inl rfl⟩
  induction text generalizing cur seenDot with
  | nil => exact ⟨[], (List.append_nil cur).symm, hnothing, id⟩
  | cons ch rest ih =>
      rw [readNumber]
      split_ifs with hdigit hcomma hpoint
      · obtain ⟨out, hout, hcontinues, -⟩ := ih (cur ++ [ch]) seenDot hnothing
        exact ⟨ch :: out, by rw [hout, List.append_assoc]; rfl, hcontinues.cons hdigit,
          fun _ => hdigit⟩
      · obtain ⟨out, hout, hcontinues, -⟩ := ih cur seenDot hnothing
        exact ⟨out, hout, hcontinues, fun hstart => absurd hstart hdigit⟩
      · -- The point is followed by a digit, so there are decimals.
        obtain ⟨-, rfl, hstarts⟩ := hpoint
        obtain ⟨out, hout, hcontinues, hdecimals⟩ := ih (cur ++ [chr '.']) true
          fun d hd => absurd hd List.not_mem_nil
        have hne : out ≠ [] := fun hnil => by
          have := hdecimals hstarts
          rw [hnil] at this
          cases this
        refine ⟨chr '.' :: out, by rw [hout, List.append_assoc]; rfl, ?_,
          fun hstart => absurd hstart hdigit⟩
        exact ⟨[], chr '.' :: out, rfl, fun d hd => absurd hd List.not_mem_nil,
          .inr ⟨out, rfl, hne, hcontinues⟩⟩
      · exact ⟨[], (List.append_nil cur).symm, hnothing, fun hstart => absurd hstart hdigit⟩

/-- Nothing is read across a blank. -/
theorem readNumber_blank (front later cur : Bytes) (seenDot : Bool) :
    chr ' ' :: later <:+ (readNumber cur seenDot (front ++ chr ' ' :: later)).2 := by
  induction front generalizing cur seenDot with
  | nil =>
      have hblank : isDigit (chr ' ') = false ∧ chr ' ' ≠ chr ',' ∧ chr ' ' ≠ chr '.' := by decide
      rw [List.nil_append, readNumber, if_neg (by simp [hblank.1]),
        if_neg (fun hcomma => hblank.2.1 hcomma.1), if_neg (fun hpoint => hblank.2.2 hpoint.1)]
  | cons ch front ih =>
      rw [List.cons_append, readNumber]
      split_ifs
      · exact ih _ _
      · exact ih _ _
      · exact ih _ _
      · exact List.suffix_append (ch :: front) _

/-- Digits are read one after the other. -/
theorem readNumber_digits {digits : Bytes} (hdigits : ∀ d ∈ digits, isDigit d = true)
    (later cur : Bytes) (seenDot : Bool) :
    readNumber cur seenDot (digits ++ later) = readNumber (cur ++ digits) seenDot later := by
  induction digits generalizing cur with
  | nil => rw [List.nil_append, List.append_nil]
  | cons d digits ih =>
      obtain ⟨hd, hrest⟩ := List.forall_mem_cons.mp hdigits
      rw [List.cons_append, readNumber, if_pos hd, ih hrest, List.append_assoc]
      rfl

/-- Digits and a fraction are read as a whole. -/
theorem readNumber_text {digits fraction : Bytes} (hdigits : ∀ d ∈ digits, isDigit d = true)
    (hfraction : fraction = [] ∨ ∃ decimals, fraction = chr '.' :: decimals ∧ decimals ≠ [] ∧
      ∀ d ∈ decimals, isDigit d = true) (cur : Bytes) :
    readNumber cur false (digits ++ fraction) = (cur ++ (digits ++ fraction), []) := by
  rw [readNumber_digits hdigits]
  rcases hfraction with rfl | ⟨decimals, rfl, hne, hdecimals⟩
  · rw [readNumber, List.append_nil]
  · have hpoint : isDigit (chr '.') = false ∧ chr '.' ≠ chr ',' := by decide
    have hstarts : startsDigit decimals = true := by
      cases decimals with
      | nil => exact absurd rfl hne
      | cons d rest => exact hdecimals d List.mem_cons_self
    rw [readNumber, if_neg (by simp [hpoint.1]), if_neg (fun hcomma => hpoint.2 hcomma.1),
      if_pos ⟨rfl, rfl, hstarts⟩]
    have hread := readNumber_digits hdecimals [] (cur ++ digits ++ [chr '.']) true
    rw [List.append_nil, readNumber] at hread
    rw [hread]
    simp

/-! ## The number at a position -/

theorem numberFrom_le (text : Bytes) (fuel i : ℕ) (cur : Bytes) (seenDot : Bool)
    (hi : i ≤ text.length) : (numberFrom text fuel i cur seenDot).2 ≤ text.length := by
  induction fuel generalizing i cur seenDot with
  | zero => exact hi
  | succ fuel ih =>
      rw [numberFrom]
      rcases hi.lt_or_eq with hlt | heq
      · rw [List.getElem?_eq_getElem hlt]
        dsimp only
        split_ifs
        · exact ih _ _ _ hlt
        · exact ih _ _ _ hlt
        · exact ih _ _ _ hlt
        · exact hi
      · rw [List.getElem?_eq_none heq.ge]
        exact hi

theorem signAt_iff {text : Bytes} {i : ℕ} : signAt text i = true ↔
    text[i]? = some (chr '-') ∧ digitAt text (i + 1) = true ∧
      (i = 0 ∨ (text[i - 1]?).any isAlnum = false) := by
  simp [signAt, and_assoc]

/-- Where the reader starts at a position, and with what. -/
theorem numberAt_eq (text : Bytes) {i : ℕ} (hi : i < text.length) :
    let read := if signAt text i then readNumber [chr '-'] false (text.drop (i + 1))
      else readNumber [] false (text.drop i)
    (numberAt text i).1 = read.1 ∧ text.drop (numberAt text i).2 = read.2 ∧
      (numberAt text i).2 ≤ text.length := by
  unfold numberAt
  split
  · have heq := numberFrom_eq text text.length (i + 1) [chr '-'] false (by omega)
    exact ⟨heq.1, heq.2, numberFrom_le _ _ _ _ _ hi⟩
  · have heq := numberFrom_eq text text.length i [] false (by omega)
    exact ⟨heq.1, heq.2, numberFrom_le _ _ _ _ _ hi.le⟩

theorem lt_of_begins {text : Bytes} {i : ℕ}
    (hbegins : digitAt text i = true ∨ signAt text i = true) : i < text.length := by
  by_contra hi
  have hnone : text[i]? = none := List.getElem?_eq_none (not_lt.mp hi)
  rcases hbegins with hdigit | hsign
  · simp [digitAt, hnone] at hdigit
  · simp [signAt, hnone] at hsign

/-- A number takes at least a character. -/
theorem lt_numberAt {text : Bytes} {i : ℕ}
    (hbegins : digitAt text i = true ∨ signAt text i = true) : i < (numberAt text i).2 := by
  have hi := lt_of_begins hbegins
  unfold numberAt
  split
  · exact Nat.lt_of_succ_le (le_numberFrom ..)
  · rename_i hsign
    obtain ⟨ch, hch, hdigit⟩ := (Option.any_eq_true _ _).mp (hbegins.resolve_right hsign)
    obtain ⟨length, hlength⟩ : ∃ length, text.length = length + 1 :=
      Nat.exists_eq_succ_of_ne_zero (by omega)
    rw [hlength, numberFrom, hch]
    dsimp only
    rw [if_pos hdigit]
    exact Nat.lt_of_succ_le (le_numberFrom ..)

/-- What is read where a number begins is well formed. -/
theorem wellFormed_numberAt {text : Bytes} {i : ℕ}
    (hbegins : digitAt text i = true ∨ signAt text i = true) :
    ∃ sign digits fraction, WellFormed (numberAt text i).1 sign digits fraction := by
  obtain ⟨sign, later, hsign, hread, hstarts⟩ : ∃ sign later, (sign = [] ∨ sign = [chr '-']) ∧
      (numberAt text i).1 = (readNumber sign false later).1 ∧ startsDigit later = true := by
    have hread := (numberAt_eq text (lt_of_begins hbegins)).1
    by_cases hsign : signAt text i = true
    · rw [if_pos hsign] at hread
      exact ⟨_, _, .inr rfl, hread, digitAt_eq text (i + 1) ▸ (signAt_iff.mp hsign).2.1⟩
    · rw [if_neg hsign] at hread
      exact ⟨_, _, .inl rfl, hread, digitAt_eq text i ▸ hbegins.resolve_right hsign⟩
  obtain ⟨out, hout, ⟨digits, fraction, rfl, hdigits, hfraction⟩, hfirst⟩ :=
    readNumber_continues later sign false
  refine ⟨sign, digits, fraction, by rw [hread, hout, List.append_assoc], hsign,
    ⟨fun hnil => ?_, hdigits⟩, hfraction⟩
  -- Without digits the fraction would begin with one.
  have hfirst := hfirst hstarts
  rw [hnil, List.nil_append] at hfirst
  rcases hfraction with rfl | ⟨decimals, rfl, -, -⟩
  · cases hfirst
  · have hpoint : isDigit (chr '.') = false := by decide
    exact absurd (hpoint.symm.trans hfirst) Bool.false_ne_true

theorem WellFormed.ne_nil {number sign digits fraction : Bytes}
    (hnumber : WellFormed number sign digits fraction) : number ≠ [] := by
  rw [hnumber.text]
  simp [hnumber.digits.1]

/-! ## The scan -/

/-- The three things a round of the outer loop can do. -/
theorem scanStep_cases (text : Bytes) (i : ℕ) (last : Bytes) :
    (text.length ≤ i ∧ scanStep text (i, last) = .inr last) ∨
      (i < text.length ∧ digitAt text i = false ∧ signAt text i = false ∧
        scanStep text (i, last) = .inl (i + 1, last)) ∨
      ((digitAt text i = true ∨ signAt text i = true) ∧
        scanStep text (i, last) = .inl ((numberAt text i).2, (numberAt text i).1)) := by
  rw [scanStep]
  rcases Nat.lt_or_ge i text.length with hi | hi
  · rw [if_neg (not_le.mpr hi)]
    cases hdigit : digitAt text i <;> cases hsign : signAt text i <;> simp [hi]
  · rw [if_pos hi]
    exact .inl ⟨hi, rfl⟩

/-- The outer loop leaves. -/
theorem exits_finalNumberFrom (text : Bytes) (fuel i : ℕ) (last : Bytes)
    (hfuel : text.length ≤ fuel + i) :
    Loop.Exits (scanStep text) (i, last) (finalNumberFrom text fuel i last) := by
  induction fuel generalizing i last with
  | zero =>
      rcases scanStep_cases text i last with ⟨-, hstep⟩ | ⟨hi, -⟩ | ⟨hbegins, -⟩
      · exact .leave hstep
      · omega
      · have hi := lt_of_begins hbegins
        omega
  | succ fuel ih =>
      rw [finalNumberFrom]
      rcases scanStep_cases text i last with ⟨hi, hstep⟩ | ⟨hi, hdigit, hsign, hstep⟩ |
        ⟨hbegins, hstep⟩
      · rw [if_pos hi]
        exact .leave hstep
      · rw [if_neg (not_le.mpr hi), if_pos (by simp [hdigit, hsign])]
        exact .next hstep (ih _ _ (by omega))
      · have hnumber : ¬ (!digitAt text i && !signAt text i) = true := by
          rcases hbegins with hdigit | hsign <;> simp [*]
        rw [if_neg (not_le.mpr (lt_of_begins hbegins)), if_neg hnumber]
        have hmore := lt_numberAt hbegins
        exact .next hstep (ih _ _ (by omega))

theorem exits_finalNumber (text : Bytes) :
    Loop.Exits (scanStep text) (0, []) (finalNumber text) :=
  exits_finalNumberFrom text text.length 0 [] le_rfl

/-- What the outer loop leaves with: the last number, if there is a digit ahead. -/
theorem result_of_exits {text : Bytes} {state : ℕ × Bytes} {out : Bytes}
    (hexits : Loop.Exits (scanStep text) state out) :
    ((∀ j ≥ state.1, digitAt text j = false) ∧ out = state.2) ∨
      (∃ j ≥ state.1, digitAt text j = true) ∧
        ∃ sign digits fraction, WellFormed out sign digits fraction := by
  induction hexits with
  | @leave state out hstep =>
      obtain ⟨i, last⟩ := state
      rcases scanStep_cases text i last with ⟨hi, heq⟩ | ⟨-, -, -, heq⟩ | ⟨-, heq⟩
      · rw [heq] at hstep
        cases hstep
        refine .inl ⟨fun j hj => ?_, rfl⟩
        rw [digitAt, List.getElem?_eq_none (hi.trans hj)]
        rfl
      · rw [heq] at hstep
        cases hstep
      · rw [heq] at hstep
        cases hstep
  | @next state after out hstep hrest ih =>
      obtain ⟨i, last⟩ := state
      rcases scanStep_cases text i last with ⟨-, heq⟩ | ⟨-, hdigit, -, heq⟩ | ⟨hbegins, heq⟩
      · rw [heq] at hstep
        cases hstep
      · rw [heq] at hstep
        cases hstep
        rcases ih with ⟨hnone, rfl⟩ | ⟨⟨j, hj, hsome⟩, hwell⟩
        · refine .inl ⟨fun j hj => ?_, rfl⟩
          rcases Nat.eq_or_lt_of_le hj with rfl | hlater
          · exact hdigit
          · exact hnone j hlater
        · exact .inr ⟨⟨j, (Nat.le_succ i).trans hj, hsome⟩, hwell⟩
      · rw [heq] at hstep
        cases hstep
        have hahead : ∃ j ≥ i, digitAt text j = true := by
          rcases hbegins with hdigit | hsign
          · exact ⟨i, le_rfl, hdigit⟩
          · exact ⟨i + 1, Nat.le_succ i, (signAt_iff.mp hsign).2.1⟩
        rcases ih with ⟨-, rfl⟩ | ⟨-, hwell⟩
        · exact .inr ⟨hahead, wellFormed_numberAt hbegins⟩
        · exact .inr ⟨hahead, hwell⟩

/-- With a digit ahead, it does not matter what has been read. -/
theorem exits_forgets {text : Bytes} {i : ℕ} {last out : Bytes} (other : Bytes)
    (hahead : ∃ j ≥ i, digitAt text j = true)
    (hexits : Loop.Exits (scanStep text) (i, last) out) :
    Loop.Exits (scanStep text) (i, other) out := by
  generalize hstate : (i, last) = state at hexits
  induction hexits generalizing i with
  | @leave state out hstep =>
      subst hstate
      obtain ⟨j, hj, hdigit⟩ := hahead
      rcases scanStep_cases text i last with ⟨hi, -⟩ | ⟨-, -, -, heq⟩ | ⟨-, heq⟩
      · have hlt := lt_of_begins (.inl hdigit)
        omega
      · rw [heq] at hstep
        cases hstep
      · rw [heq] at hstep
        cases hstep
  | @next state after out hstep hrest ih =>
      subst hstate
      rcases scanStep_cases text i last with ⟨-, heq⟩ | ⟨hi, hdigit, hsign, heq⟩ | ⟨hbegins, heq⟩
      · rw [heq] at hstep
        cases hstep
      · rw [heq] at hstep
        cases hstep
        have hother : scanStep text (i, other) = .inl (i + 1, other) := by
          rw [scanStep, if_neg (not_le.mpr hi), if_pos (by simp [hdigit, hsign])]
        refine .next hother (ih ?_ rfl)
        obtain ⟨j, hj, hsome⟩ := hahead
        rcases Nat.eq_or_lt_of_le hj with rfl | hlater
        · rw [hdigit] at hsome
          cases hsome
        · exact ⟨j, hlater, hsome⟩
      · rw [heq] at hstep
        cases hstep
        have hother : scanStep text (i, other) =
            .inl ((numberAt text i).2, (numberAt text i).1) := by
          have hnumber : ¬ (!digitAt text i && !signAt text i) = true := by
            rcases hbegins with hdigit | hsign <;> simp [*]
          rw [scanStep, if_neg (not_le.mpr (lt_of_begins hbegins)), if_neg hnumber]
        exact .next hother hrest

/-! ## A number by itself -/

/-- A number is read as a whole. -/
theorem finalNumber_of_wellFormed {number sign digits fraction : Bytes}
    (hnumber : WellFormed number sign digits fraction) : finalNumber number = number := by
  obtain ⟨rfl, hsign, ⟨hne, hdigits⟩, hfraction⟩ := hnumber
  obtain ⟨d, rest, rfl⟩ := List.exists_cons_of_ne_nil hne
  have hd : isDigit d = true := hdigits d List.mem_cons_self
  set number := sign ++ d :: rest ++ fraction with hnumber
  have hstart : digitAt number 0 = true ∨ signAt number 0 = true := by
    rcases hsign with rfl | rfl
    · exact .inl hd
    · exact .inr (signAt_iff.mpr ⟨rfl, hd, .inl rfl⟩)
  obtain ⟨hread, hend, hle⟩ := numberAt_eq number (lt_of_begins hstart)
  have hwhole : (if signAt number 0 then readNumber [chr '-'] false (number.drop 1)
      else readNumber [] false number) = (number, []) := by
    rcases hsign with rfl | rfl
    · have hnosign : signAt number 0 = false := by
        have hminus : isDigit (chr '-') = false := by decide
        rw [Bool.eq_false_iff]
        intro hsign
        cases (signAt_iff.mp hsign).1
        rw [hminus] at hd
        cases hd
      rw [hnosign]
      exact readNumber_text hdigits hfraction []
    · have hminus : signAt number 0 = true := signAt_iff.mpr ⟨rfl, hd, .inl rfl⟩
      rw [if_pos hminus]
      exact readNumber_text hdigits hfraction [chr '-']
  rw [Nat.zero_add, List.drop_zero, hwhole] at hread hend
  have hlength : number.length ≤ (numberAt number 0).2 := List.drop_eq_nil_iff.mp hend
  have hexits : Loop.Exits (scanStep number) (0, []) number := by
    rcases scanStep_cases number 0 [] with ⟨hover, -⟩ | ⟨-, hdigit, hsign, -⟩ | ⟨-, hstep⟩
    · exact absurd (lt_of_begins hstart) (not_lt.mpr hover)
    · simp [hdigit, hsign] at hstart
    · rw [hread] at hstep
      exact .next hstep (.leave (by rw [scanStep, if_pos hlength]))
  exact (exits_finalNumber number).unique hexits

/-! ## The conclusion of a text -/

section Conclusion

variable (front : Bytes) {later : Bytes}

theorem digitAt_append (i : ℕ) :
    digitAt (front ++ later) (front.length + i) = digitAt later i := by
  rw [digitAt, digitAt, List.getElem?_append_right (Nat.le_add_right ..), Nat.add_sub_cancel_left]

/-- Behind the first character nothing before it is looked at. -/
theorem signAt_append {i : ℕ} (hi : 1 ≤ i) :
    signAt (front ++ later) (front.length + i) = signAt later i := by
  have hzero : (front.length + i == 0) = (i == 0) := by
    rw [beq_eq_false_iff_ne.mpr (by omega), beq_eq_false_iff_ne.mpr (by omega)]
  have hat : ∀ j, (front ++ later)[front.length + j]? = later[j]? := fun j => by
    rw [List.getElem?_append_right (Nat.le_add_right ..), Nat.add_sub_cancel_left]
  rw [signAt, signAt, hzero, Nat.add_sub_assoc hi, Nat.add_assoc, digitAt_append, hat, hat]

theorem numberAt_append {i : ℕ} (hi : 1 ≤ i) (hlt : i < later.length) :
    numberAt (front ++ later) (front.length + i) =
      ((numberAt later i).1, front.length + (numberAt later i).2) := by
  have hlength : front.length + i < (front ++ later).length := by
    rw [List.length_append]
    omega
  obtain ⟨hread, hend, hle⟩ := numberAt_eq (front ++ later) hlength
  obtain ⟨hread', hend', hle'⟩ := numberAt_eq later hlt
  rw [signAt_append front hi, Nat.add_assoc, List.drop_length_add_append,
    List.drop_length_add_append] at hread hend
  rw [← hread'] at hread
  rw [← hend'] at hend
  have hsame := congrArg List.length hend
  rw [List.length_drop, List.length_drop, List.length_append] at hsame
  rw [List.length_append] at hle
  exact Prod.ext hread (show _ = front.length + _ by omega)

/-- From its second character on the end of a text is scanned as by itself. -/
theorem exits_append {i : ℕ} {last out : Bytes} (hi : 1 ≤ i)
    (hexits : Loop.Exits (scanStep later) (i, last) out) :
    Loop.Exits (scanStep (front ++ later)) (front.length + i, last) out := by
  refine hexits.simulate (scanStep (front ++ later)) (fun state => 1 ≤ state.1)
    (fun state => (front.length + state.1, state.2)) id ?_ ?_ hi
  · rintro ⟨j, kept⟩ after hj hstep
    have hj : 1 ≤ j := hj
    rcases scanStep_cases later j kept with ⟨-, heq⟩ | ⟨hlt, hdigit, hsign, heq⟩ | ⟨hbegins, heq⟩
    · rw [heq] at hstep
      cases hstep
    · rw [heq] at hstep
      cases hstep
      refine ⟨Nat.le_add_left 1 j, fun out hout => .next ?_ hout⟩
      rw [scanStep, digitAt_append, signAt_append front hj, List.length_append,
        if_neg (by omega), if_pos (by simp [hdigit, hsign])]
      rfl
    · rw [heq] at hstep
      cases hstep
      have hmore := lt_numberAt hbegins
      refine ⟨hj.trans hmore.le, fun out hout => .next ?_ hout⟩
      have hlt := lt_of_begins hbegins
      have hnumber : ¬ (!digitAt later j && !signAt later j) = true := by
        rcases hbegins with hdigit | hsign <;> simp [*]
      rw [scanStep, digitAt_append, signAt_append front hj, List.length_append,
        if_neg (by omega), if_neg hnumber, numberAt_append front hj hlt]
  · rintro ⟨j, kept⟩ out hj hstep
    rcases scanStep_cases later j kept with ⟨hover, heq⟩ | ⟨-, -, -, heq⟩ | ⟨-, heq⟩
    · rw [heq] at hstep
      cases hstep
      exact .leave (by rw [scanStep, List.length_append, if_pos (by omega)]; rfl)
    · rw [heq] at hstep
      cases hstep
    · rw [heq] at hstep
      cases hstep

/-- The scan starts a round at every blank. -/
theorem visits_blank (i : ℕ) (last : Bytes) (hi : i ≤ front.length) :
    ∃ kept, Loop.Visits (scanStep (front ++ chr ' ' :: later)) (i, last) (front.length, kept) := by
  obtain ⟨left, hleft⟩ : ∃ left, front.length - i = left := ⟨_, rfl⟩
  induction left using Nat.strongRecOn generalizing i last with
  | _ left ih =>
      rcases hi.eq_or_lt with rfl | hlt
      · exact ⟨last, .start⟩
      · rcases scanStep_cases (front ++ chr ' ' :: later) i last with ⟨hover, -⟩ |
          ⟨-, -, -, heq⟩ | ⟨hbegins, heq⟩
        · rw [List.length_append] at hover
          omega
        · obtain ⟨kept, hvisit⟩ := ih _ (by omega) (i + 1) last hlt rfl
          exact ⟨kept, hvisit.of_next heq⟩
        · -- The number ends at the blank at the latest.
          have hmore := lt_numberAt hbegins
          have hend : (numberAt (front ++ chr ' ' :: later) i).2 ≤ front.length := by
            obtain ⟨-, hend, hle⟩ := numberAt_eq _ (lt_of_begins hbegins)
            have hrest : chr ' ' :: later <:+
                (front ++ chr ' ' :: later).drop (numberAt (front ++ chr ' ' :: later) i).2 := by
              rw [hend, List.drop_append_of_le_length hlt, List.drop_append_of_le_length hlt.le]
              split
              · exact readNumber_blank ..
              · exact readNumber_blank ..
            have hlength := hrest.length_le
            rw [List.length_drop, List.length_append] at hlength
            rw [List.length_append] at hle
            omega
          obtain ⟨kept, hvisit⟩ := ih _ (by omega) _ _ hend rfl
          exact ⟨kept, hvisit.of_next heq⟩

/-- What stands before a blank with a digit behind it does not matter. -/
theorem finalNumber_append (hhead : later.head? = some (chr ' '))
    (hdigit : ∃ d ∈ later, isDigit d = true) : finalNumber (front ++ later) = finalNumber later := by
  obtain ⟨blank, rest, rfl⟩ : ∃ blank rest, later = blank :: rest := by
    cases later with
    | nil => cases hhead
    | cons blank rest => exact ⟨blank, rest, rfl⟩
  cases hhead
  have hblank : isDigit (chr ' ') = false ∧ chr ' ' ≠ chr '-' := by decide
  -- Nothing begins at the blank, in either text.
  have hleft : scanStep (chr ' ' :: rest) (0, []) = .inl (1, []) := by
    rcases scanStep_cases (chr ' ' :: rest) 0 [] with ⟨hover, -⟩ | ⟨-, -, -, heq⟩ | ⟨hbegins, -⟩
    · cases hover
    · exact heq
    · exact absurd hbegins (by simp [digitAt, signAt, hblank])
  have hright : ∀ kept, scanStep (front ++ chr ' ' :: rest) (front.length, kept) =
      .inl (front.length + 1, kept) := by
    intro kept
    rcases scanStep_cases (front ++ chr ' ' :: rest) front.length kept with ⟨hover, -⟩ |
      ⟨-, -, -, heq⟩ | ⟨hbegins, -⟩
    · simp at hover
    · exact heq
    · exact absurd hbegins (by simp [digitAt, signAt, hblank])
  have hahead : ∃ j ≥ front.length + 1, digitAt (front ++ chr ' ' :: rest) j = true := by
    obtain ⟨d, hd, hdigit⟩ := hdigit
    obtain ⟨k, hk⟩ := List.mem_iff_getElem?.mp hd
    cases k with
    | zero =>
        cases hk
        exact absurd (hblank.1.symm.trans hdigit) Bool.false_ne_true
    | succ k =>
        refine ⟨front.length + (k + 1), by omega, ?_⟩
        rw [digitAt_append, digitAt, hk]
        exact hdigit
  have hlater := (exits_finalNumber (chr ' ' :: rest)).after_visits (.next .start hleft)
  obtain ⟨kept, hvisit⟩ : ∃ kept, Loop.Visits (scanStep (front ++ chr ' ' :: rest)) (0, [])
      (front.length, kept) := visits_blank front 0 [] (Nat.zero_le _)
  refine (exits_finalNumber _).unique (.of_visits hvisit (.next (hright kept) ?_))
  exact exits_forgets kept hahead (exits_append front le_rfl hlater)

end Conclusion

/-! ## The last number -/

/-- Both loops leave, and the result is empty exactly if the text has no digit, is otherwise a
number, which is its own last number, and depends on the conclusion of the text only. -/
theorem final_number_wellFormed (text : Bytes) :
    (∀ i cur seenDot, Loop.Exits (numberStep text) (i, cur, seenDot)
      (numberFrom text text.length i cur seenDot)) ∧
    Loop.Exits (scanStep text) (0, []) (finalNumber text) ∧
    (finalNumber text = [] ↔ ∀ ch ∈ text, isDigit ch = false) ∧
    (finalNumber text ≠ [] →
      ∃ sign digits fraction, WellFormed (finalNumber text) sign digits fraction) ∧
    finalNumber (finalNumber text) = finalNumber text ∧
    ∀ later : Bytes, later.head? = some (chr ' ') → (∃ d ∈ later, isDigit d = true) →
      finalNumber (text ++ later) = finalNumber later := by
  refine ⟨fun i cur seenDot => exits_numberFrom text _ i cur seenDot (Nat.le_add_right ..),
    exits_finalNumber text, ?_, ?_, ?_, fun later => finalNumber_append text⟩
  · rcases result_of_exits (exits_finalNumber text) with
      ⟨hnone, hempty⟩ | ⟨⟨j, -, hdigit⟩, _, _, _, hwell⟩
    · refine iff_of_true hempty fun ch hch => ?_
      obtain ⟨k, hk⟩ := List.mem_iff_getElem?.mp hch
      have hk' := hnone k (Nat.zero_le k)
      rw [digitAt, hk] at hk'
      exact hk'
    · refine iff_of_false hwell.ne_nil fun hnone => ?_
      obtain ⟨ch, hch, hdigit⟩ := (Option.any_eq_true _ _).mp hdigit
      rw [hnone ch (List.mem_of_getElem? hch)] at hdigit
      cases hdigit
  · intro hne
    rcases result_of_exits (exits_finalNumber text) with ⟨-, hempty⟩ | ⟨-, hwell⟩
    · exact absurd hempty hne
    · exact hwell
  · rcases result_of_exits (exits_finalNumber text) with ⟨-, hempty⟩ | ⟨-, _, _, _, hwell⟩
    · rw [hempty]
      rfl
    · exact finalNumber_of_wellFormed hwell

theorem final_number_wellFormed_conclusion :
    finalNumber (ascii "1.2.3 or 3-4," ++ ascii " so 1,024.50-") =
      finalNumber (ascii " so 1,024.50-") :=
  (final_number_wellFormed _).2.2.2.2.2 _ (by decide) (by decide)

end Reame.Core.Conclave
