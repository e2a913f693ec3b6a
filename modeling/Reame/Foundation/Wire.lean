import Mathlib.Data.List.Infix
import Mathlib.Data.List.TakeWhile
import Mathlib.Tactic

/-!
# Decimal numbers and lines in byte strings

Text protocols send lengths in decimal and end their lines with CR LF.  `decimal` is
the text of a number and `stol` the reading of one, with the faults of the C library;
`findCrlf` is the position of the first line end, `find` that of any pattern.

A line whose text has no CR ends where it was ended (`findCrlf_line`), and no shorter
prefix of it has an end yet (`findCrlf_part`).
-/

namespace Reame.Wire

/-- Carriage return and line feed. -/
def crlf : List UInt8 := [13, 10]

/-- `tolower`, in the C locale. -/
def toLower (b : UInt8) : UInt8 := if 65 ≤ b ∧ b ≤ 90 then b + 32 else b

/-! ## Decimal numbers -/

/-- `isdigit`. -/
def isDigit (b : UInt8) : Bool := 48 ≤ b && b ≤ 57

/-- `isspace`. -/
def isSpace (b : UInt8) : Bool := b == 32 || (9 ≤ b && b ≤ 13)

/-- `std::to_string` of a natural number. -/
def decimal (n : ℕ) : List UInt8 := (Nat.toDigits 10 n).map fun c => c.toNat.toUInt8

/-- The number that digits stand for. -/
def digitsValue (digits : List UInt8) : ℕ :=
  digits.foldl (fun value b => 10 * value + (b.toNat - 48)) 0

/-- What `std::stol` throws. -/
inductive StolFault
  | invalidArgument
  | outOfRange
deriving DecidableEq, Repr

/-- `std::stol`: blanks, a sign, and as many digits as there are, as a 64-bit number. -/
def stol (text : List UInt8) : Except StolFault ℤ :=
  let text := text.dropWhile isSpace
  let digits := (if text.head? = some 45 ∨ text.head? = some 43 then text.drop 1 else text).takeWhile
    isDigit
  if digits = [] then .error .invalidArgument
  else
    let value : ℤ := if text.head? = some 45 then -digitsValue digits else digitsValue digits
    if -2 ^ 63 ≤ value ∧ value < 2 ^ 63 then .ok value else .error .outOfRange

/-- `std::strtoull`: blanks, a sign, and as many digits as there are, as an unsigned 64-bit
number; what is too large for one is the largest of them. -/
def strtoull (text : List UInt8) : ℕ :=
  let text := text.dropWhile isSpace
  let digits := (if text.head? = some 45 ∨ text.head? = some 43 then text.drop 1 else text).takeWhile
    isDigit
  if 2 ^ 64 ≤ digitsValue digits then 2 ^ 64 - 1
  else if text.head? = some 45 then (2 ^ 64 - digitsValue digits) % 2 ^ 64
  else digitsValue digits

theorem toNat_of_mem_toDigits {n : ℕ} {c : Char} (hc : c ∈ Nat.toDigits 10 n) :
    48 ≤ c.toNat ∧ c.toNat ≤ 57 := by
  have hdigit := Nat.isDigit_of_mem_toDigits (by decide) (by decide) hc
  simp only [Char.isDigit, Bool.and_eq_true, decide_eq_true_eq] at hdigit
  exact ⟨UInt32.le_iff_toNat_le.mp hdigit.1, UInt32.le_iff_toNat_le.mp hdigit.2⟩

theorem isDigit_of_mem_decimal {n : ℕ} {b : UInt8} (hb : b ∈ decimal n) : isDigit b = true := by
  obtain ⟨c, hc, rfl⟩ := List.mem_map.mp hb
  obtain ⟨hlow, hhigh⟩ := toNat_of_mem_toDigits hc
  simp only [isDigit, Bool.and_eq_true, decide_eq_true_eq, UInt8.le_iff_toNat_le]
  constructor <;> simp <;> omega

theorem isSpace_of_isDigit {b : UInt8} (hdigit : isDigit b = true) : isSpace b = false := by
  have hrange : 48 ≤ b.toNat ∧ b.toNat ≤ 57 := by
    simpa [isDigit, UInt8.le_iff_toNat_le] using hdigit
  simp only [isSpace, Bool.or_eq_false_iff, beq_eq_false_iff_ne, Bool.and_eq_false_iff,
    decide_eq_false_iff_not, UInt8.le_iff_toNat_le, ne_eq, ← UInt8.toNat_inj]
  simp
  omega

theorem decimal_ne_nil (n : ℕ) : decimal n ≠ [] := by
  simp [decimal, Nat.toDigits_ne_nil]

theorem digitsValue_decimal (n : ℕ) : digitsValue (decimal n) = n := by
  have hfold : ∀ (chars : List Char) (value : ℕ), (∀ c ∈ chars, c.toNat ≤ 57) →
      (chars.map fun c => c.toNat.toUInt8).foldl
        (fun value b => 10 * value + (b.toNat - 48)) value = Nat.ofDigitChars 10 chars value := by
    intro chars
    induction chars with
    | nil => simp
    | cons c rest ih =>
        intro value hsmall
        have hc := hsmall c (List.mem_cons_self ..)
        rw [List.map_cons, List.foldl_cons, ih _ fun c' hc' => hsmall c' (List.mem_cons_of_mem _ hc'),
          Nat.ofDigitChars_cons, Nat.toUInt8_eq, UInt8.toNat_ofNat_of_lt' (hc.trans_lt (by decide))]
        rfl
  rw [digitsValue, decimal, hfold _ _ fun c hc => (toNat_of_mem_toDigits hc).2,
    Nat.ofDigitChars_ten_toDigits]

theorem decimal_inj {m n : ℕ} (heq : decimal m = decimal n) : m = n := by
  rw [← digitsValue_decimal m, heq, digitsValue_decimal]

/-- A number ends at the first byte that is no digit. -/
theorem decimal_append_inj {m n : ℕ} {b b' : UInt8} {rest rest' : List UInt8}
    (hb : isDigit b = false) (hb' : isDigit b' = false)
    (heq : decimal m ++ b :: rest = decimal n ++ b' :: rest') :
    m = n ∧ b :: rest = b' :: rest' := by
  have hfront : ∀ (k : ℕ) {c : UInt8} (later : List UInt8), isDigit c = false →
      (decimal k ++ c :: later).takeWhile isDigit = decimal k := by
    intro k c later hc
    rw [List.takeWhile_append_of_pos fun d hd => isDigit_of_mem_decimal hd,
      List.takeWhile_cons_of_neg (by simp [hc]), List.append_nil]
  have hdigits := congrArg (List.takeWhile isDigit) heq
  rw [hfront m rest hb, hfront n rest' hb'] at hdigits
  rw [hdigits] at heq
  exact ⟨decimal_inj hdigits, List.append_cancel_left heq⟩

/-- `stol` reads back what `to_string` writes. -/
theorem stol_decimal {n : ℕ} (hn : n < 2 ^ 63) : stol (decimal n) = .ok n := by
  obtain ⟨b, rest, hdecimal⟩ := List.exists_cons_of_ne_nil (decimal_ne_nil n)
  have hdigit : isDigit b = true := isDigit_of_mem_decimal (hdecimal ▸ List.mem_cons_self ..)
  have hrange : 48 ≤ b.toNat ∧ b.toNat ≤ 57 := by
    simpa [isDigit, UInt8.le_iff_toNat_le] using hdigit
  have hspace : isSpace b = false := isSpace_of_isDigit hdigit
  have hdrop : (decimal n).dropWhile isSpace = decimal n := by simp [hdecimal, hspace]
  have hsign : ¬ ((decimal n).head? = some 45 ∨ (decimal n).head? = some 43) := by
    simp only [hdecimal, List.head?_cons, Option.some.injEq, ← UInt8.toNat_inj]
    simp
    omega
  have htake : (decimal n).takeWhile isDigit = decimal n :=
    List.takeWhile_eq_self_iff.mpr fun b hb => isDigit_of_mem_decimal hb
  have hvalue : -2 ^ 63 ≤ (n : ℤ) ∧ (n : ℤ) < 2 ^ 63 := by omega
  simp only [stol, hdrop, if_neg hsign, htake, if_neg (decimal_ne_nil n), digitsValue_decimal,
    if_neg (not_or.mp hsign).1, if_pos hvalue]

theorem cr_notMem_decimal (n : ℕ) : 13 ∉ decimal n := by
  intro hmem
  exact absurd (isDigit_of_mem_decimal hmem) (by decide)

/-! ## Lines -/

/-- The position of the first CR LF. -/
def findCrlf : List UInt8 → Option ℕ
  | b :: b' :: rest =>
      if b = 13 ∧ b' = 10 then some 0 else (findCrlf (b' :: rest)).map (· + 1)
  | _ => none

theorem findCrlf_line {line : List UInt8} (hline : 13 ∉ line) (rest : List UInt8) :
    findCrlf (line ++ crlf ++ rest) = some line.length := by
  induction line with
  | nil => rfl
  | cons b line ih =>
      have hb : b ≠ 13 := fun heq => hline (heq ▸ List.mem_cons_self ..)
      have ih := ih fun hmem => hline (List.mem_cons_of_mem _ hmem)
      cases line with
      | nil => simp [findCrlf, crlf, hb]
      | cons b' line =>
          simp only [List.cons_append] at ih ⊢
          rw [findCrlf, if_neg fun h => hb h.1, ih]
          rfl

theorem findCrlf_eq_none {line : List UInt8} (hline : 13 ∉ line) :
    findCrlf line = none ∧ findCrlf (line ++ [13]) = none := by
  induction line with
  | nil => exact ⟨rfl, rfl⟩
  | cons b line ih =>
      have hb : b ≠ 13 := fun heq => hline (heq ▸ List.mem_cons_self ..)
      have ih := ih fun hmem => hline (List.mem_cons_of_mem _ hmem)
      cases line with
      | nil => simp [findCrlf, hb]
      | cons b' line =>
          simp only [List.cons_append] at ih ⊢
          rw [findCrlf, findCrlf, if_neg fun h => hb h.1, if_neg fun h => hb h.1, ih.1, ih.2]
          exact ⟨rfl, rfl⟩

/-- A line end that is there is there with more input. -/
theorem findCrlf_append {text : List UInt8} {eol : ℕ} (hfind : findCrlf text = some eol)
    (later : List UInt8) : eol + 2 ≤ text.length ∧ findCrlf (text ++ later) = some eol := by
  induction text generalizing eol with
  | nil => cases hfind
  | cons b rest ih =>
      cases rest with
      | nil => cases hfind
      | cons b' rest =>
          rw [findCrlf] at hfind
          rw [List.cons_append, List.cons_append, findCrlf]
          by_cases hcrlf : b = 13 ∧ b' = 10
          · rw [if_pos hcrlf] at hfind ⊢
            cases hfind
            exact ⟨by simp, rfl⟩
          · rw [if_neg hcrlf] at hfind ⊢
            obtain ⟨before, hbefore, rfl⟩ := Option.map_eq_some_iff.mp hfind
            obtain ⟨hle, hlater⟩ := ih hbefore
            rw [List.cons_append] at hlater
            refine ⟨?_, by rw [hlater]; rfl⟩
            rw [List.length_cons]
            omega

/-- The first line end cuts the text in two. -/
theorem findCrlf_spec {text : List UInt8} {eol : ℕ} (hfind : findCrlf text = some eol) :
    text = text.take eol ++ crlf ++ text.drop (eol + 2) ∧
      findCrlf (text.take eol ++ crlf) = some eol := by
  induction text generalizing eol with
  | nil => cases hfind
  | cons b rest ih =>
      cases rest with
      | nil => cases hfind
      | cons b' rest =>
          rw [findCrlf] at hfind
          by_cases hcrlf : b = 13 ∧ b' = 10
          · rw [if_pos hcrlf] at hfind
            cases hfind
            obtain ⟨rfl, rfl⟩ := hcrlf
            exact ⟨by simp [crlf], rfl⟩
          · rw [if_neg hcrlf] at hfind
            obtain ⟨before, hbefore, rfl⟩ := Option.map_eq_some_iff.mp hfind
            obtain ⟨htext, hagain⟩ := ih hbefore
            refine ⟨by simpa using htext, ?_⟩
            rw [List.take_succ_cons, List.cons_append]
            -- The second byte of the line is `b'`, or the line end if the line has one byte.
            cases before with
            | zero =>
                rw [List.take_zero, List.nil_append, crlf, findCrlf,
                  if_neg fun h => absurd h.2 (by decide)]
                rfl
            | succ before =>
                rw [List.take_succ_cons, List.cons_append] at hagain ⊢
                rw [findCrlf, if_neg hcrlf, hagain]
                rfl

/-- A line that is not complete has no end yet. -/
theorem findCrlf_part {line part : List UInt8} (hline : 13 ∉ line)
    (hpart : part <+: line ++ crlf) (hlt : part.length < line.length + 2) :
    findCrlf part = none := by
  rcases Nat.lt_or_ge line.length part.length with hlong | hshort
  · have hlength : part.length = line.length + 1 := by omega
    have heq : part = line ++ [13] := by
      have htake := List.prefix_iff_eq_take.mp hpart
      rw [hlength, crlf, List.take_append, List.take_of_length_le (by omega)] at htake
      simpa using htake
    rw [heq]
    exact (findCrlf_eq_none hline).2
  · have hpre : part <+: line :=
      List.prefix_of_prefix_length_le hpart (List.prefix_append _ _) hshort
    exact (findCrlf_eq_none fun hmem => hline (hpre.subset hmem)).1

/-- A line end cannot start before the text that follows a line without CR. -/
theorem findCrlf_line_append {line : List UInt8} (hline : 13 ∉ line) (text : List UInt8) :
    findCrlf (line ++ text) = (findCrlf text).map (· + line.length) := by
  induction line with
  | nil => simp
  | cons b line ih =>
      have hb : b ≠ 13 := fun heq => hline (heq ▸ List.mem_cons_self ..)
      have ih := ih fun hmem => hline (List.mem_cons_of_mem _ hmem)
      cases hrest : line ++ text with
      | nil =>
          obtain ⟨rfl, rfl⟩ := List.append_eq_nil_iff.mp hrest
          rfl
      | cons b' rest =>
          rw [List.cons_append, hrest, findCrlf, if_neg fun h => hb h.1, ← hrest, ih,
            Option.map_map, List.length_cons]
          rfl

/-- A byte that is no LF does not end a line. -/
theorem findCrlf_append_byte (text : List UInt8) {b : UInt8} (hb : b ≠ 10) :
    findCrlf (text ++ [b]) = none ↔ findCrlf text = none := by
  induction text with
  | nil => simp [findCrlf]
  | cons c text ih =>
      cases text with
      | nil => simp [findCrlf, hb]
      | cons c' text =>
          rw [List.cons_append] at ih
          rw [List.cons_append, List.cons_append, findCrlf, findCrlf]
          by_cases hcrlf : c = 13 ∧ c' = 10
          · rw [if_pos hcrlf, if_pos hcrlf]
          · rw [if_neg hcrlf, if_neg hcrlf, Option.map_eq_none_iff, Option.map_eq_none_iff]
            exact ih

/-- A text ends its line where it ends, exactly if it has no line end in it. -/
theorem findCrlf_append_crlf (text : List UInt8) :
    findCrlf (text ++ crlf) = some text.length ↔ findCrlf text = none := by
  constructor
  · intro hend
    cases hfind : findCrlf text with
    | none => rfl
    | some eol =>
        obtain ⟨hle, hsame⟩ := findCrlf_append hfind crlf
        rw [hend, Option.some.injEq] at hsame
        omega
  · induction text with
    | nil => exact fun _ => rfl
    | cons b text ih =>
        intro hnone
        cases text with
        | nil => simp [findCrlf, crlf]
        | cons b' text =>
            rw [findCrlf] at hnone
            by_cases hcrlf : b = 13 ∧ b' = 10
            · simp [hcrlf] at hnone
            · rw [if_neg hcrlf, Option.map_eq_none_iff] at hnone
              have ih := ih hnone
              rw [List.cons_append] at ih
              rw [List.cons_append, List.cons_append, findCrlf, if_neg hcrlf, ih]
              rfl

/-! ## Patterns -/

/-- `std::string::find`: the first position of a pattern. -/
def find (pattern : List UInt8) : List UInt8 → Option ℕ
  | [] => if pattern = [] then some 0 else none
  | b :: rest => if pattern <+: b :: rest then some 0 else (find pattern rest).map (· + 1)

/-- `std::string::find` from a position on. -/
def findFrom (pattern text : List UInt8) (pos : ℕ) : Option ℕ :=
  (find pattern (text.drop pos)).map (pos + ·)

/-- A search finds in a part of a text what it finds in all of it, if it is in that part. -/
theorem find_append_iff {pattern text : List UInt8} (later : List UInt8) {i : ℕ} :
    find pattern text = some i ↔
      find pattern (text ++ later) = some i ∧ i + pattern.length ≤ text.length := by
  induction text generalizing i with
  | nil =>
      by_cases hpattern : pattern = []
      · subst hpattern
        have hzero : find [] ([] ++ later) = some 0 := by cases later <;> rfl
        rw [hzero, find, if_pos rfl, List.length_nil, Option.some.injEq]
        omega
      · have hlength := List.length_pos_iff.mpr hpattern
        rw [find, if_neg hpattern, List.length_nil]
        refine iff_of_false nofun fun hboth => ?_
        omega
  | cons b rest ih =>
      rw [List.cons_append, find, find]
      by_cases hhere : pattern <+: b :: rest
      · have hlater : pattern <+: b :: (rest ++ later) :=
          hhere.trans (List.prefix_append (b :: rest) later)
        rw [if_pos hhere, if_pos hlater, Option.some.injEq]
        refine ⟨fun hi => ⟨hi, ?_⟩, fun hboth => hboth.1⟩
        rw [← hi, Nat.zero_add]
        exact hhere.length_le
      · rw [if_neg hhere]
        by_cases hlater : pattern <+: b :: (rest ++ later)
        · -- The pattern is there only with what comes later.
          rw [if_pos hlater, Option.some.injEq]
          have hlong : (b :: rest).length < pattern.length := by
            by_contra hshort
            exact hhere (List.prefix_of_prefix_length_le hlater
              (List.prefix_append (b :: rest) later) (not_lt.mp hshort))
          refine iff_of_false (fun hfind => ?_) fun hboth => ?_
          · obtain ⟨j, hj, rfl⟩ := Option.map_eq_some_iff.mp hfind
            have hle := (ih.mp hj).2
            rw [List.length_cons] at hlong
            omega
          · have hle := hboth.2
            omega
        · rw [if_neg hlater, Option.map_eq_some_iff, Option.map_eq_some_iff, List.length_cons]
          constructor
          · intro hfind
            obtain ⟨j, hj, rfl⟩ := hfind
            obtain ⟨hsame, hle⟩ := ih.mp hj
            exact ⟨⟨j, hsame, rfl⟩, by omega⟩
          · intro hboth
            obtain ⟨⟨j, hj, rfl⟩, hle⟩ := hboth
            exact ⟨j, ih.mpr ⟨hj, by omega⟩, rfl⟩

theorem find_append {pattern text : List UInt8} {i : ℕ} (hfind : find pattern text = some i)
    (later : List UInt8) : find pattern (text ++ later) = some i :=
  ((find_append_iff later).mp hfind).1

theorem find_length {pattern text : List UInt8} {i : ℕ} (hfind : find pattern text = some i) :
    i + pattern.length ≤ text.length := ((find_append_iff []).mp hfind).2

/-- A part that reaches beyond what is found is enough to find it. -/
theorem find_take {pattern text : List UInt8} {i n : ℕ} (hfind : find pattern text = some i)
    (hn : i + pattern.length ≤ n) : find pattern (text.take n) = some i := by
  have hlength := find_length hfind
  refine (find_append_iff (text.drop n)).mpr ⟨?_, ?_⟩
  · rw [List.take_append_drop]
    exact hfind
  · rw [List.length_take]
    omega

/-- What is found is there. -/
theorem find_spec {pattern text : List UInt8} {i : ℕ} (hfind : find pattern text = some i) :
    pattern <+: text.drop i := by
  induction text generalizing i with
  | nil =>
      unfold find at hfind
      split_ifs at hfind with hpattern
      exact hpattern ▸ List.nil_prefix
  | cons b rest ih =>
      unfold find at hfind
      split_ifs at hfind with hhere
      · cases hfind
        exact hhere
      · obtain ⟨j, hj, rfl⟩ := Option.map_eq_some_iff.mp hfind
        exact ih hj

/-- What is there is found there or before. -/
theorem exists_find_le {pattern text : List UInt8} {n : ℕ} (hthere : pattern <+: text.drop n) :
    ∃ i ≤ n, find pattern text = some i := by
  induction text generalizing n with
  | nil =>
      rw [List.drop_nil, List.prefix_nil] at hthere
      exact ⟨0, Nat.zero_le n, if_pos hthere⟩
  | cons b rest ih =>
      unfold find
      by_cases hhere : pattern <+: b :: rest
      · exact ⟨0, Nat.zero_le n, if_pos hhere⟩
      · rw [if_neg hhere]
        cases n with
        | zero => exact absurd hthere hhere
        | succ n =>
            obtain ⟨i, hle, hi⟩ := ih hthere
            exact ⟨i + 1, Nat.succ_le_succ hle, by rw [hi]; rfl⟩

/-! ## Reads -/

/-- The reads are a slicing of the stream: a read brings between one byte and a buffer. -/
def Slices (reads : List (List UInt8)) (stream : List UInt8) : Prop :=
  reads.flatten = stream ∧ ∀ piece ∈ reads, 1 ≤ piece.length ∧ piece.length ≤ 8192

instance (reads : List (List UInt8)) (stream : List UInt8) : Decidable (Slices reads stream) :=
  inferInstanceAs (Decidable (_ ∧ _))

theorem Slices.append {reads later : List (List UInt8)} {stream rest : List UInt8}
    (hreads : Slices reads stream) (hlater : Slices later rest) :
    Slices (reads ++ later) (stream ++ rest) := by
  refine ⟨by rw [List.flatten_append, hreads.1, hlater.1], fun piece hpiece => ?_⟩
  rcases List.mem_append.mp hpiece with hfirst | hsecond
  · exact hreads.2 piece hfirst
  · exact hlater.2 piece hsecond

/-- A stream that fits a buffer, in one read. -/
theorem slices_one {stream : List UInt8} (hpos : 1 ≤ stream.length)
    (hfits : stream.length ≤ 8192) : Slices [stream] stream := by
  refine ⟨List.flatten_singleton, fun piece hpiece => ?_⟩
  rw [List.mem_singleton.mp hpiece]
  exact ⟨hpos, hfits⟩

/-- A stream byte by byte. -/
theorem slices_bytes (stream : List UInt8) : Slices (stream.map ([·])) stream := by
  refine ⟨by rw [← List.flatMap_def, List.flatMap_singleton'], fun piece hpiece => ?_⟩
  obtain ⟨b, -, rfl⟩ := List.mem_map.mp hpiece
  exact ⟨le_rfl, show 1 ≤ 8192 by decide⟩

end Reame.Wire
