import Reame.Foundation.Wire

/-!
# Header blocks

A message starts with lines that end in CR LF, and an empty line.  A reader finds the end of
the block by looking for two line ends in a row, and the lines by looking for one; what comes
behind the block plays no part, since no line is empty or has a CR in it.

`find_line` and `find_blank` say where the two searches end.  `find_own_line` is about a
writer who looks for a line of its own in the block, to take it out again: it is found where
it was written unless an earlier line ends like it.
-/

namespace Reame.Wire

/-- Lines, each with its end. -/
def ended (ls : List (List UInt8)) : List UInt8 := ls.flatMap fun line => line ++ crlf

@[simp] theorem ended_nil : ended [] = [] := rfl

@[simp] theorem ended_cons (line : List UInt8) (ls : List (List UInt8)) :
    ended (line :: ls) = line ++ crlf ++ ended ls := rfl

theorem ended_append (ls later : List (List UInt8)) :
    ended (ls ++ later) = ended ls ++ ended later :=
  List.flatMap_append

/-- A line of a block: there is something in it, but no CR. -/
structure IsLine (line : List UInt8) : Prop where
  ne_nil : line ≠ []
  noCr : (13 : UInt8) ∉ line

/-- A search goes on where the pattern does not begin. -/
theorem find_skip {pattern rest : List UInt8} {b : UInt8} (hb : ¬ pattern <+: b :: rest) :
    find pattern (b :: rest) = (find pattern rest).map (· + 1) := if_neg hb

/-- A pattern does not begin with a byte that is not its first one. -/
theorem not_prefix_of_head {pattern rest : List UInt8} {first b : UInt8} (hb : first ≠ b) :
    ¬ first :: pattern <+: b :: rest := fun hbegins => hb (List.cons_prefix_cons.mp hbegins).1

/-- A text without CR up to a CR. -/
theorem takeWhile_line {line : List UInt8} (hline : (13 : UInt8) ∉ line) (rest : List UInt8) :
    (line ++ 13 :: rest).takeWhile (· ≠ 13) = line := by
  rw [List.takeWhile_append_of_pos, List.takeWhile_cons_of_neg (by decide), List.append_nil]
  intro b hb
  exact decide_eq_true fun heq => hline (heq ▸ hb)

/-- Two lines that end at the same place of a text are the same. -/
theorem eq_of_begins {line other rest : List UInt8} (hline : (13 : UInt8) ∉ line)
    (hother : (13 : UInt8) ∉ other) (hbegins : other ++ crlf <+: line ++ crlf ++ rest) :
    other = line := by
  obtain ⟨later, hlater⟩ := hbegins
  have hleft := takeWhile_line hother (10 :: later)
  have hright := takeWhile_line hline (10 :: rest)
  have htexts : other ++ 13 :: 10 :: later = line ++ 13 :: 10 :: rest := by
    simpa [crlf] using hlater
  rw [← hleft, ← hright, htexts]

/-- `strtoull` reads back what `to_string` writes. -/
theorem strtoull_decimal {n : ℕ} (hn : n < 2 ^ 64) : strtoull (decimal n) = n := by
  obtain ⟨b, rest, hdecimal⟩ := List.exists_cons_of_ne_nil (decimal_ne_nil n)
  have hdigit : isDigit b = true := isDigit_of_mem_decimal (hdecimal ▸ List.mem_cons_self ..)
  have hdrop : (decimal n).dropWhile isSpace = decimal n := by
    simp [hdecimal, isSpace_of_isDigit hdigit]
  have hsign : ¬ ((decimal n).head? = some 45 ∨ (decimal n).head? = some 43) := by
    rw [hdecimal, List.head?_cons]
    rintro (heq | heq)
    · rw [Option.some.inj heq] at hdigit
      exact absurd hdigit (by decide)
    · rw [Option.some.inj heq] at hdigit
      exact absurd hdigit (by decide)
  have htake : (decimal n).takeWhile isDigit = decimal n :=
    List.takeWhile_eq_self_iff.mpr fun b hb => isDigit_of_mem_decimal hb
  simp only [strtoull, hdrop, if_neg hsign, htake, digitsValue_decimal, if_neg (not_le.mpr hn),
    if_neg (not_or.mp hsign).1]

/-- The end of the first line. -/
theorem find_line {line : List UInt8} (hline : (13 : UInt8) ∉ line) (rest : List UInt8) :
    find crlf (line ++ crlf ++ rest) = some line.length := by
  induction line with
  | nil => rfl
  | cons b line ih =>
      have hb : (13 : UInt8) ≠ b := fun heq => hline (heq ▸ List.mem_cons_self ..)
      have ih := ih fun hmem => hline (List.mem_cons_of_mem _ hmem)
      have hnot : ¬ crlf <+: b :: (line ++ crlf ++ rest) := not_prefix_of_head hb
      rw [List.cons_append, List.cons_append, find_skip hnot, ih]
      rfl

/-- A line does not end a block. -/
theorem find_blank_line {line : List UInt8} (hline : (13 : UInt8) ∉ line) (rest : List UInt8) :
    find (crlf ++ crlf) (line ++ rest) = (find (crlf ++ crlf) rest).map (· + line.length) := by
  induction line with
  | nil => simp
  | cons b line ih =>
      have hb : (13 : UInt8) ≠ b := fun heq => hline (heq ▸ List.mem_cons_self ..)
      have ih := ih fun hmem => hline (List.mem_cons_of_mem _ hmem)
      have hnot : ¬ crlf ++ crlf <+: b :: (line ++ rest) := not_prefix_of_head hb
      rw [List.cons_append, find_skip hnot, ih, Option.map_map,
        List.length_cons]
      rfl

/-- The end of a block. -/
theorem find_blank {line : List UInt8} {ls : List (List UInt8)} (hline : IsLine line)
    (hls : ∀ later ∈ ls, IsLine later) (rest : List UInt8) :
    find (crlf ++ crlf) (ended (line :: ls) ++ crlf ++ rest) =
      some ((ended (line :: ls)).length - 2) := by
  induction ls generalizing line with
  | nil =>
      rw [ended_cons, ended_nil, List.append_nil, List.append_assoc, List.append_assoc,
        find_blank_line hline.noCr, ← List.append_assoc]
      have hhere : find (crlf ++ crlf) (crlf ++ crlf ++ rest) = some 0 := rfl
      rw [hhere, List.length_append]
      simp [crlf]
  | cons next ls ih =>
      have hnext : IsLine next := hls next (List.mem_cons_self ..)
      have ih := ih hnext fun later hlater => hls later (List.mem_cons_of_mem _ hlater)
      obtain ⟨b, tail, htail⟩ := List.exists_cons_of_ne_nil hnext.ne_nil
      have hb : (13 : UInt8) ≠ b := fun heq =>
        hnext.noCr (htail ▸ heq ▸ List.mem_cons_self ..)
      have hsplit : ended (line :: next :: ls) ++ crlf ++ rest =
          line ++ (13 :: 10 :: (ended (next :: ls) ++ crlf ++ rest)) := by
        rw [ended_cons line]
        simp [crlf]
      -- The line end is followed by the first byte of the next line.
      have hbyte : ∃ more, ended (next :: ls) ++ crlf ++ rest = b :: more :=
        ⟨tail ++ crlf ++ ended ls ++ crlf ++ rest, by rw [ended_cons, htail]; simp⟩
      obtain ⟨more, hmore⟩ := hbyte
      have hcr : ¬ crlf ++ crlf <+: 13 :: 10 :: (ended (next :: ls) ++ crlf ++ rest) := by
        rw [hmore]
        intro hbegins
        have hrest := (List.cons_prefix_cons.mp (List.cons_prefix_cons.mp hbegins).2).2
        exact hb (List.cons_prefix_cons.mp hrest).1
      have hlf : ¬ crlf ++ crlf <+: 10 :: (ended (next :: ls) ++ crlf ++ rest) :=
        not_prefix_of_head (by decide)
      have hlength : (ended (line :: next :: ls)).length =
          line.length + 2 + (ended (next :: ls)).length := by
        rw [ended_cons line, List.length_append, List.length_append]
        rfl
      have htwo : 2 ≤ (ended (next :: ls)).length := by
        rw [ended_cons, List.length_append, List.length_append]
        have hcrlf : crlf.length = 2 := rfl
        omega
      rw [hsplit, find_blank_line hline.noCr, find_skip hcr, find_skip hlf, ih, hlength]
      simp only [Option.map_some, Option.some.injEq]
      omega

/-- What a line does not end in is not found in it. -/
theorem find_own_skip {own : List UInt8} (hown : IsLine own) (hlf : own.head? ≠ some 10)
    {line : List UInt8} (hline : (13 : UInt8) ∉ line) (hend : ¬ own <:+ line)
    (more : List UInt8) :
    find (own ++ crlf) (line ++ crlf ++ more) =
      (find (own ++ crlf) more).map (· + (line.length + 2)) := by
  obtain ⟨b, tail, htail⟩ := List.exists_cons_of_ne_nil hown.ne_nil
  have hcrNe : b ≠ 13 := fun heq => hown.noCr (htail ▸ heq ▸ List.mem_cons_self ..)
  have hlfNe : b ≠ 10 := fun heq => hlf (by rw [htail, heq]; rfl)
  induction line with
  | nil =>
      have hcr : ¬ own ++ crlf <+: 13 :: 10 :: more := by
        rw [htail]
        exact not_prefix_of_head hcrNe
      have hten : ¬ own ++ crlf <+: 10 :: more := by
        rw [htail]
        exact not_prefix_of_head hlfNe
      show find (own ++ crlf) (13 :: 10 :: more) = _
      rw [find_skip hcr, find_skip hten, Option.map_map]
      rfl
  | cons c line ih =>
      have hnot : ¬ own ++ crlf <+: c :: (line ++ crlf ++ more) := by
        intro hbegins
        exact hend (eq_of_begins hline hown.noCr hbegins ▸ List.suffix_rfl)
      have ih := ih (fun hmem => hline (List.mem_cons_of_mem _ hmem)) fun hsuffix =>
        hend (hsuffix.trans (List.suffix_cons c line))
      rw [List.cons_append, List.cons_append, find_skip hnot, ih, Option.map_map,
        List.length_cons]
      refine congrArg (fun f => Option.map f (find (own ++ crlf) more)) (funext fun i => ?_)
      show i + (line.length + 2) + 1 = i + (line.length + 1 + 2)
      omega

/-- A line is found where it was written, unless an earlier one ends like it. -/
theorem find_own_line {own : List UInt8} (hown : IsLine own) (hlf : own.head? ≠ some 10)
    {ls : List (List UInt8)} (hls : ∀ line ∈ ls, (13 : UInt8) ∉ line ∧ ¬ own <:+ line)
    (rest : List UInt8) :
    find (own ++ crlf) (ended ls ++ (own ++ crlf ++ rest)) = some (ended ls).length := by
  induction ls with
  | nil =>
      obtain ⟨b, tail, htail⟩ := List.exists_cons_of_ne_nil hown.ne_nil
      have hhere : own ++ crlf <+: own ++ crlf ++ rest := List.prefix_append _ _
      rw [ended_nil, List.nil_append]
      rw [htail] at hhere ⊢
      exact if_pos hhere
  | cons line ls ih =>
      have ih := ih fun later hlater => hls later (List.mem_cons_of_mem _ hlater)
      obtain ⟨hline, hend⟩ := hls line (List.mem_cons_self ..)
      rw [ended_cons, List.append_assoc, find_own_skip hown hlf hline hend, ih,
        List.length_append, List.length_append, Option.map_some, Option.some.injEq]
      exact Nat.add_comm _ _

end Reame.Wire
