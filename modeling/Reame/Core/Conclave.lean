import Reame.Core.Backend
import Reame.Foundation.Majority
import Reame.Foundation.Wire

/-!
# The conclave

Several answers to one prompt, and the one that is elected: by the number that each of
them ends with (`electNumeric`), or by the words they share (`elect`).

Similarities are `double`s.  Nothing here depends on how those round, so they are of any
type with the operations that are used.

A number that more than half of the answers end with is elected
(`electNumeric_of_majority`), however the rest is spread.
-/

namespace Reame.Core.Conclave

/-! ## Words -/

/-- `std::isalnum` in the C locale. -/
def isAlnum (b : UInt8) : Bool :=
  Wire.isDigit b || (65 ≤ b && b ≤ 90) || (97 ≤ b && b ≤ 122)

/-- The loop of `word_set`; the accumulator is `cur`. -/
def wordsFrom : Bytes → Bytes → List Bytes
  | cur, [] => if cur ≠ [] then [cur] else []
  | cur, ch :: rest =>
      if isAlnum ch then wordsFrom (cur ++ [Wire.toLower ch]) rest
      else if cur ≠ [] then cur :: wordsFrom [] rest
      else wordsFrom [] rest

/-- `word_set`. -/
def wordSet (text : Bytes) : List Bytes := (wordsFrom [] text).dedup

section Similarity

variable (D : Type*) [Zero D] [One D] [Neg D] [Add D] [Div D] [NatCast D] [LT D] [DecidableLT D]

/-- `answer_similarity`. -/
def answerSimilarity (a b : Bytes) : D :=
  let wa := wordSet a
  let wb := wordSet b
  if wa = [] ∨ wb = [] then 0
  else
    let common := wa.countP (· ∈ wb)
    let uni := wa.length + wb.length - common
    if uni = 0 then 0 else (common : D) / (uni : D)

/-- The score of a candidate in `elect`. -/
def similarityTo (candidates : List Bytes) (i : ℕ) : D :=
  (List.range candidates.length).foldl
    (fun score j =>
      if i ≠ j then score + answerSimilarity D (candidates.getD i []) (candidates.getD j [])
      else score) 0

/-- `elect`. -/
def elect (candidates : List Bytes) : ℕ :=
  if candidates.length < 2 then 0
  else (Majority.champion (fun _ => true) (similarityTo D candidates)
    (List.range candidates.length) (0, -1)).1

end Similarity

/-! ## Numbers -/

/-- A digit at a position. -/
def digitAt (text : Bytes) (i : ℕ) : Bool := (text[i]?).any Wire.isDigit

/-- The inner loop of `final_number`, with `cur` and `seen_dot`; also where it ends. -/
def numberFrom (text : Bytes) : ℕ → ℕ → Bytes → Bool → Bytes × ℕ
  | 0, i, cur, _ => (cur, i)
  | fuel + 1, i, cur, seenDot =>
      match text[i]? with
      | none => (cur, i)
      | some ch =>
          if Wire.isDigit ch then numberFrom text fuel (i + 1) (cur ++ [ch]) seenDot
          else if ch = chr ',' ∧ digitAt text (i + 1) then numberFrom text fuel (i + 1) cur seenDot
          else if ch = chr '.' ∧ seenDot = false ∧ digitAt text (i + 1) then
            numberFrom text fuel (i + 1) (cur ++ [chr '.']) true
          else (cur, i)

/-- A minus sign at a position: before a digit, and not glued to a word. -/
def signAt (text : Bytes) (i : ℕ) : Bool :=
  text[i]? = some (chr '-') && digitAt text (i + 1) &&
    (i == 0 || !(text[i - 1]?).any isAlnum)

/-- The outer loop of `final_number`, with `last`. -/
def finalNumberFrom (text : Bytes) : ℕ → ℕ → Bytes → Bytes
  | 0, _, last => last
  | fuel + 1, i, last =>
      if text.length ≤ i then last
      else if !digitAt text i && !signAt text i then finalNumberFrom text fuel (i + 1) last
      else
        let (cur, i) :=
          if signAt text i then numberFrom text text.length (i + 1) [chr '-'] false
          else numberFrom text text.length i [] false
        finalNumberFrom text fuel i cur

/-- `final_number`; both loops advance by a character at least. -/
def finalNumber (text : Bytes) : Bytes := finalNumberFrom text text.length 0 []

/-- Test vectors of the source. -/
example : finalNumber (ascii "12 x 13 = 156, minus 50 gives 106.") = ascii "106" ∧
    finalNumber (ascii "the temperature dropped to -3.5 degrees") = ascii "-3.5" ∧
    finalNumber (ascii "total: 1,024 items") = ascii "1024" ∧
    finalNumber (ascii "no digits here") = [] ∧
    finalNumber (ascii "twenty-two is 22") = ascii "22" := by decide +kernel

theorem le_numberFrom (text : Bytes) (fuel i : ℕ) (cur : Bytes) (seenDot : Bool) :
    i ≤ (numberFrom text fuel i cur seenDot).2 := by
  induction fuel generalizing i cur seenDot with
  | zero => exact le_rfl
  | succ fuel ih =>
      rw [numberFrom]
      split
      · exact le_rfl
      · split
        · exact (Nat.le_succ i).trans (ih ..)
        · split
          · exact (Nat.le_succ i).trans (ih ..)
          · split
            · exact (Nat.le_succ i).trans (ih ..)
            · exact le_rfl

/-- The fuel of the outer loop is enough: more of it changes nothing. -/
theorem finalNumberFrom_succ (text : Bytes) (fuel i : ℕ) (last : Bytes)
    (hfuel : text.length ≤ fuel + i) :
    finalNumberFrom text (fuel + 1) i last = finalNumberFrom text fuel i last := by
  induction fuel generalizing i last with
  | zero =>
      conv_lhs => rw [finalNumberFrom, if_pos (show text.length ≤ i by omega)]
      rfl
  | succ fuel ih =>
      conv_lhs => rw [finalNumberFrom]
      conv_rhs => rw [finalNumberFrom]
      split
      · rfl
      · rename_i hlt
        split
        · exact ih _ _ (by omega)
        · rename_i hnumber
          have hahead : ∀ cur, i < (numberFrom text text.length (i + 1) cur false).2 :=
            fun cur => Nat.lt_of_succ_le (le_numberFrom ..)
          by_cases hsign : signAt text i = true
          · rw [if_pos hsign]
            have hmore := hahead [chr '-']
            exact ih _ _ (by omega)
          · -- A digit is consumed.
            rw [if_neg hsign]
            have hdigit : digitAt text i = true := by simpa [hsign] using hnumber
            obtain ⟨ch, hch, hch'⟩ := (Option.any_eq_true _ _).mp hdigit
            obtain ⟨length, hlength⟩ : ∃ length, text.length = length + 1 :=
              Nat.exists_eq_succ_of_ne_zero (by omega)
            have hmore : i < (numberFrom text text.length i [] false).2 := by
              rw [hlength, numberFrom, hch]
              dsimp only
              rw [if_pos hch']
              exact Nat.lt_of_succ_le (le_numberFrom text length (i + 1) _ false)
            exact ih _ _ (by omega)

/-! ## The vote -/

section Vote

variable (D : Type*) [Zero D] [One D] [Neg D] [Add D] [Div D] [NatCast D] [LT D] [DecidableLT D]

/-- `elect_numeric`. -/
def electNumeric (candidates : List Bytes) : ℕ :=
  if candidates.length < 2 then 0
  else
    let numbers := candidates.map finalNumber
    let numeric := numbers.countP (· ≠ [])
    let best :=
      if candidates.length ≤ numeric * 2 then
        (Majority.champion (fun i => numbers.getD i [] ≠ [])
          (fun i => numbers.countP (· = numbers.getD i [])) (List.range candidates.length)
          (candidates.length, 1)).1
      else candidates.length
    if best < candidates.length then best else elect D candidates

theorem elect_lt {candidates : List Bytes} (hne : candidates ≠ []) :
    elect D candidates < candidates.length := by
  have hpos := List.length_pos_iff.mpr hne
  unfold elect
  split
  · exact hpos
  · rcases Majority.champion_mem (fun _ => true) (similarityTo D candidates)
      (List.range candidates.length) (0, -1) with hfirst | hmem
    · rw [hfirst]
      exact hpos
    · exact List.mem_range.mp hmem

/-- One of the candidates is elected. -/
theorem electNumeric_lt {candidates : List Bytes} (hne : candidates ≠ []) :
    electNumeric D candidates < candidates.length := by
  unfold electNumeric
  split
  · exact List.length_pos_iff.mpr hne
  · have helected : ∀ best : ℕ, (if best < candidates.length then best
        else elect D candidates) < candidates.length := by
      intro best
      split
      · assumption
      · exact elect_lt D hne
    exact helected _

omit [Zero D] [One D] [Neg D] [Add D] [Div D] [NatCast D] [LT D] [DecidableLT D] in
theorem getD_ofFn {n : ℕ} {α : Type*} (f : Fin n → α) (i : Fin n) (default : α) :
    (List.ofFn f).getD i default = f i := by
  rw [List.getD_eq_getElem?_getD, List.getElem?_eq_getElem (by simp), Option.getD_some,
    List.getElem_ofFn]

/-- A number that more than half of the candidates end with is elected. -/
theorem electNumeric_of_majority {n : ℕ} (htwo : 2 ≤ n) (texts : Fin n → Bytes) {v : Bytes}
    (hv : v ≠ []) (hmajority : Majority.HasMajority (fun i => finalNumber (texts i)) v) :
    ∃ i : Fin n, electNumeric D (List.ofFn texts) = i ∧ finalNumber (texts i) = v := by
  let numbers := (List.ofFn texts).map finalNumber
  have hnumbers : numbers = List.ofFn fun i => finalNumber (texts i) := List.map_ofFn
  have hget : ∀ i : Fin n, numbers.getD i [] = finalNumber (texts i) := by
    intro i
    rw [hnumbers]
    exact getD_ofFn (fun i => finalNumber (texts i)) i []
  have hvotes : ∀ w, numbers.countP (· = w) = Majority.votes (fun i => finalNumber (texts i)) w := by
    intro w
    rw [hnumbers, Majority.countP_ofFn]
    simp [Majority.votes]
  have hcard : n < 2 * Majority.votes (fun i => finalNumber (texts i)) v := by
    simpa [Majority.HasMajority] using hmajority
  -- At least half of the candidates end with a number.
  have hnumeric : n ≤ numbers.countP (· ≠ []) * 2 := by
    have hle : numbers.countP (· = v) ≤ numbers.countP (· ≠ []) := by
      refine List.countP_mono_left fun w _ hw => ?_
      simp_all
    rw [hvotes] at hle
    omega
  obtain ⟨hbest, -, hbeats⟩ := Majority.champion_spec
    (fun i => decide (numbers.getD i [] ≠ [])) (fun i => numbers.countP (· = numbers.getD i []))
    (List.range n) (n, 1)
  obtain ⟨w, hw⟩ : ∃ i, finalNumber (texts i) = v := by
    by_contra hnone
    have hzero : Majority.votes (fun i => finalNumber (texts i)) v = 0 := by
      refine Finset.card_eq_zero.mpr (Finset.filter_eq_empty_iff.mpr fun i _ hi => hnone ⟨i, hi⟩)
    omega
  have hbeaten := hbeats w (List.mem_range.mpr w.isLt) (by rw [hget, hw]; simpa using hv)
  rw [hget, hw, hvotes] at hbeaten
  rcases hbest with hstart | ⟨i, hi, hchampion, -, -⟩
  · -- The start has one vote, and the number has two at least.
    rw [hstart] at hbeaten
    dsimp only at hbeaten
    omega
  · have hlt := List.mem_range.mp hi
    refine ⟨⟨i, hlt⟩, ?_, ?_⟩
    · unfold electNumeric
      rw [List.length_ofFn, if_neg (by omega)]
      dsimp only
      rw [if_pos hnumeric, hchampion, if_pos hlt]
    · by_contra hother
      rw [hchampion] at hbeaten
      dsimp only at hbeaten
      rw [show numbers.getD i [] = finalNumber (texts ⟨i, hlt⟩) from hget ⟨i, hlt⟩, hvotes]
        at hbeaten
      exact absurd (hmajority.count_lt hother) (not_lt.mpr hbeaten)

end Vote

/-! ## The attempts -/

/-- `conclave_attempt`. -/
def conclaveAttempt {K : Type*} [Field K] [LinearOrder K] (gen : GenerationConfig K) (i : ℕ) :
    GenerationConfig K :=
  if i = 0 then gen
  else
    let g := { gen with seed := toInt32 (gen.seed + i) }
    if g.temperature < 7 / 10 then { g with temperature := 7 / 10 } else g

end Reame.Core.Conclave
