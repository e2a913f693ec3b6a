import Reame.Arca.RespParser

/-!
# Lengths that do not fit

`parse_number_line` checks that a length consists of digits and then leaves it to
`std::stol`, which throws `std::out_of_range` for a number that is no `long`.  `serve`
catches `RespError` only, so such a length ends the daemon.

`CommandText` is the grammar of complete commands and `Expects` says after which bytes a
length is read.  `feed` throws something other than a `RespError` exactly if a number that
does not fit stands where a length is read (`feed_throws_respError_iff`).
-/

namespace Reame.Arca

open Wire Incremental

/-! ## The grammar -/

/-- What `parse_number_line` accepts as digits: some, behind a minus or not. -/
def IsNumber (text : Bytes) : Prop :=
  unsignedPart text ≠ [] ∧ (unsignedPart text).all isDigit = true

/-- The number that digits stand for. -/
def numberValue (text : Bytes) : ℤ :=
  if text.head? = some 45 then -digitsValue (unsignedPart text) else digitsValue (unsignedPart text)

/-- A number that is no `long`. -/
def Overlong (text : Bytes) : Prop :=
  IsNumber text ∧ (numberValue text < -2 ^ 63 ∨ 2 ^ 63 ≤ numberValue text)

/-- A number that is a `long`. -/
def IsLength (text : Bytes) (n : ℤ) : Prop :=
  IsNumber text ∧ numberValue text = n ∧ -2 ^ 63 ≤ n ∧ n < 2 ^ 63

/-- A complete bulk string. -/
inductive BulkText : Bytes → Prop
  | mk {text payload : Bytes} (hlength : IsLength text payload.length)
      (hmax : (payload.length : ℤ) ≤ maxBulkBytes) :
      BulkText (36 :: (text ++ crlf ++ (payload ++ crlf)))

/-- A complete command. -/
inductive CommandText : Bytes → Prop
  | inline {line : Bytes} (hmarker : line.head? ≠ some 42)
      (hline : findCrlf (line ++ crlf) = some line.length) : CommandText (line ++ crlf)
  | multibulk {text : Bytes} {bulks : List Bytes} (hlength : IsLength text bulks.length)
      (hmax : (bulks.length : ℤ) ≤ maxElements) (hbulks : ∀ bulk ∈ bulks, BulkText bulk) :
      CommandText (42 :: (text ++ crlf ++ bulks.flatten))

/-- Behind these bytes a length is read: the number of elements of a command, or the length
of one of its bulk strings. -/
inductive Expects : Bytes → Prop
  | array {commands : List Bytes} (hcommands : ∀ c ∈ commands, CommandText c) :
      Expects (commands.flatten ++ [42])
  | bulk {commands : List Bytes} {text : Bytes} {n : ℤ} {bulks : List Bytes}
      (hcommands : ∀ c ∈ commands, CommandText c) (hlength : IsLength text n)
      (hmax : n ≤ maxElements) (hmore : (bulks.length : ℤ) < n)
      (hbulks : ∀ bulk ∈ bulks, BulkText bulk) :
      Expects (commands.flatten ++ (42 :: (text ++ crlf ++ (bulks.flatten ++ [36]))))

/-- A number that is no `long` stands where a length is read. -/
def HasOverlongLength (bytes : Bytes) : Prop :=
  ∃ before text rest, bytes = before ++ (text ++ crlf ++ rest) ∧ Expects before ∧ Overlong text

/-! ## Numbers -/

theorem IsNumber.ne_nil {text : Bytes} (hnumber : IsNumber text) : text ≠ [] := by
  rintro rfl
  exact hnumber.1 rfl

theorem IsNumber.mem_digit {text : Bytes} (hnumber : IsNumber text) {b : UInt8} (hb : b ∈ text) :
    b = 45 ∨ isDigit b = true := by
  have hall := List.all_eq_true.mp hnumber.2
  unfold unsignedPart at hall
  by_cases hminus : text.head? = some 45
  · rw [if_pos hminus] at hall
    obtain ⟨rest, rfl⟩ := List.head?_eq_some_iff.mp hminus
    rcases List.mem_cons.mp hb with rfl | hrest
    · exact .inl rfl
    · exact .inr (hall b hrest)
  · rw [if_neg hminus] at hall
    exact .inr (hall b hb)

theorem IsNumber.cr_notMem {text : Bytes} (hnumber : IsNumber text) : (13 : UInt8) ∉ text := by
  intro hmem
  rcases hnumber.mem_digit hmem with h | h
  · exact absurd h (by decide)
  · exact absurd h (by decide)

/-- `std::stol` on digits. -/
theorem stol_of_isNumber {text : Bytes} (hnumber : IsNumber text) :
    stol text = if -2 ^ 63 ≤ numberValue text ∧ numberValue text < 2 ^ 63 then
      .ok (numberValue text) else .error .outOfRange := by
  obtain ⟨b, rest, rfl⟩ := List.exists_cons_of_ne_nil hnumber.ne_nil
  have hb := hnumber.mem_digit (List.mem_cons_self ..)
  have hspace : isSpace b = false := by
    rcases hb with rfl | hdigit
    · rfl
    · exact isSpace_of_isDigit hdigit
  have hplus : b ≠ 43 := by
    rintro rfl
    rcases hb with h | h <;> exact absurd h (by decide)
  have hdrop : (b :: rest).dropWhile isSpace = b :: rest := by simp [hspace]
  have hsigned : (if (b :: rest).head? = some 45 ∨ (b :: rest).head? = some 43 then
      (b :: rest).drop 1 else b :: rest) = unsignedPart (b :: rest) := by
    simp [unsignedPart, hplus]
  have htake : (unsignedPart (b :: rest)).takeWhile isDigit = unsignedPart (b :: rest) :=
    List.takeWhile_eq_self_iff.mpr fun c hc => List.all_eq_true.mp hnumber.2 c hc
  simp only [stol, hdrop, hsigned, htake, if_neg hnumber.1]
  rfl

theorem numberOf_of_isNumber {text : Bytes} (hnumber : IsNumber text) :
    numberOf text = (stol text).mapError .stolFault := by
  rw [numberOf, if_neg hnumber.ne_nil, if_neg hnumber.1, if_neg (by simp [hnumber.2])]

theorem isNumber_of_numberOf {text : Bytes}
    (hread : ∀ what, numberOf text ≠ .error (.respError what)) :
    IsNumber text := by
  unfold numberOf at hread
  by_cases hempty : text = []
  · rw [if_pos hempty] at hread
    exact absurd rfl (hread _)
  by_cases hminus : unsignedPart text = []
  · rw [if_neg hempty, if_pos hminus] at hread
    exact absurd rfl (hread _)
  by_cases hdigits : ¬ (unsignedPart text).all isDigit = true
  · rw [if_neg hempty, if_neg hminus, if_pos hdigits] at hread
    exact absurd rfl (hread _)
  exact ⟨hminus, not_not.mp hdigits⟩

theorem numberOf_eq_ok_iff {text : Bytes} {n : ℤ} : numberOf text = .ok n ↔ IsLength text n := by
  constructor
  · intro hok
    have hnumber : IsNumber text := isNumber_of_numberOf fun what hbad => by simp [hok] at hbad
    rw [numberOf_of_isNumber hnumber, stol_of_isNumber hnumber] at hok
    split_ifs at hok with hrange
    · obtain rfl : numberValue text = n := by simpa [Except.mapError] using hok
      exact ⟨hnumber, rfl, hrange⟩
    · cases hok
  · rintro ⟨hnumber, rfl, hrange⟩
    rw [numberOf_of_isNumber hnumber, stol_of_isNumber hnumber, if_pos hrange]
    rfl

theorem numberOf_eq_stolFault_iff {text : Bytes} {fault : StolFault} :
    numberOf text = .error (.stolFault fault) ↔ Overlong text ∧ fault = .outOfRange := by
  constructor
  · intro hbad
    have hnumber : IsNumber text := isNumber_of_numberOf fun what hother => by
      simp [hbad] at hother
    rw [numberOf_of_isNumber hnumber, stol_of_isNumber hnumber] at hbad
    split_ifs at hbad with hrange
    · cases hbad
    · obtain rfl : StolFault.outOfRange = fault := by simpa [Except.mapError] using hbad
      exact ⟨⟨hnumber, by omega⟩, rfl⟩
  · rintro ⟨⟨hnumber, hrange⟩, rfl⟩
    rw [numberOf_of_isNumber hnumber, stol_of_isNumber hnumber, if_neg (by omega)]
    rfl

/-! ## The parser and the grammar -/

theorem parseLine_line {line : Bytes} (hline : findCrlf (line ++ crlf) = some line.length)
    (rest : Bytes) : parseLine (line ++ crlf ++ rest) = .item line rest := by
  have hfind := (findCrlf_append hline rest).2
  rw [parseLine, hfind]
  have hdrop : (line ++ crlf ++ rest).drop (line.length + 2) = rest :=
    List.drop_left' (by simp [crlf])
  have htake : (line ++ crlf ++ rest).take line.length = line := by
    rw [List.append_assoc, List.take_left]
  simp only [hdrop, htake]

theorem parseLine_ne_reject (buf : Bytes) (fault : FeedFault) : parseLine buf ≠ .reject fault := by
  unfold parseLine
  split <;> nofun

theorem parseLine_sound {buf line rest : Bytes} (hitem : parseLine buf = .item line rest) :
    buf = line ++ crlf ++ rest ∧ findCrlf (line ++ crlf) = some line.length := by
  unfold parseLine at hitem
  cases hfind : findCrlf buf with
  | none => simp [hfind] at hitem
  | some eol =>
      simp only [hfind, Step.item.injEq] at hitem
      obtain ⟨rfl, rfl⟩ := hitem
      obtain ⟨hcut, hagain⟩ := findCrlf_spec hfind
      have hle := (findCrlf_append hfind []).1
      refine ⟨hcut, ?_⟩
      rw [hagain, List.length_take, min_eq_left (by omega)]

theorem parseNumberLine_of_isNumber {text : Bytes} (hnumber : IsNumber text) (rest : Bytes) :
    parseNumberLine (text ++ crlf ++ rest) =
      match numberOf text with
      | .error fault => .reject fault
      | .ok n => .item n rest := by
  have hline := findCrlf_line hnumber.cr_notMem []
  rw [List.append_nil] at hline
  rw [parseNumberLine, parseLine_line hline]
  rfl

theorem parseNumberLine_length {text : Bytes} {n : ℤ} (hlength : IsLength text n) (rest : Bytes) :
    parseNumberLine (text ++ crlf ++ rest) = .item n rest := by
  rw [parseNumberLine_of_isNumber hlength.1, numberOf_eq_ok_iff.mpr hlength]

theorem parseNumberLine_overlong {text : Bytes} (hoverlong : Overlong text) (rest : Bytes) :
    parseNumberLine (text ++ crlf ++ rest) = .reject (.stolFault .outOfRange) := by
  rw [parseNumberLine_of_isNumber hoverlong.1, numberOf_eq_stolFault_iff.mpr ⟨hoverlong, rfl⟩]

theorem parseNumberLine_sound {buf : Bytes} :
    (∀ n rest, parseNumberLine buf = .item n rest →
      ∃ text, buf = text ++ crlf ++ rest ∧ IsLength text n) ∧
    ∀ fault, parseNumberLine buf = .reject (.stolFault fault) →
      ∃ text rest, buf = text ++ crlf ++ rest ∧ Overlong text := by
  unfold parseNumberLine
  cases hline : parseLine buf with
  | more => exact ⟨by simp [Step.andThen], by simp [Step.andThen]⟩
  | reject fault =>
      exact absurd hline (parseLine_ne_reject buf fault)
  | item text rest =>
      obtain ⟨hbuf, -⟩ := parseLine_sound hline
      simp only [Step.andThen]
      cases hnumber : numberOf text with
      | error found =>
          refine ⟨by simp, fun fault hreject => ⟨text, rest, hbuf, ?_⟩⟩
          obtain rfl : found = .stolFault fault := by simpa using hreject
          exact (numberOf_eq_stolFault_iff.mp hnumber).1
      | ok value =>
          refine ⟨fun n after hitem => ⟨text, ?_, ?_⟩, by simp⟩
          · simp only [Step.item.injEq] at hitem
            rw [← hitem.2]
            exact hbuf
          · simp only [Step.item.injEq] at hitem
            rw [← hitem.1]
            exact numberOf_eq_ok_iff.mp hnumber

theorem parseBulk_payload {text payload : Bytes} (hlength : IsLength text payload.length)
    (hmax : (payload.length : ℤ) ≤ maxBulkBytes) (rest : Bytes) :
    parseBulk (36 :: (text ++ crlf ++ (payload ++ crlf)) ++ rest) = .item payload rest := by
  have hshape : 36 :: (text ++ crlf ++ (payload ++ crlf)) ++ rest =
      36 :: (text ++ crlf ++ (payload ++ crlf ++ rest)) := by simp
  have htake : (payload ++ crlf ++ rest).take payload.length = payload := by
    rw [List.append_assoc, List.take_left]
  have hend : ((payload ++ crlf ++ rest).drop payload.length).take 2 = crlf := by
    rw [List.append_assoc, List.drop_left]
    rfl
  have hdrop : (payload ++ crlf ++ rest).drop (payload.length + 2) = rest :=
    List.drop_left' (by simp [crlf])
  have hlong : ¬ (payload ++ crlf ++ rest).length < payload.length + 2 := by
    simp only [List.length_append, crlf, List.length_cons, List.length_nil]
    omega
  calc parseBulk (36 :: (text ++ crlf ++ (payload ++ crlf)) ++ rest)
      = parsePayload payload.length (payload ++ crlf ++ rest) := by
        rw [hshape, parseBulk, if_neg (by simp), parseNumberLine_length hlength, Step.andThen]
    _ = .item ((payload ++ crlf ++ rest).take payload.length)
          ((payload ++ crlf ++ rest).drop (payload.length + 2)) := by
        rw [parsePayload, if_neg (by omega), Int.toNat_natCast, if_neg hlong,
          if_neg (not_not.mpr hend)]
    _ = .item payload rest := by rw [htake, hdrop]

theorem parseBulk_text {bulk : Bytes} (hbulk : BulkText bulk) (rest : Bytes) :
    ∃ part, parseBulk (bulk ++ rest) = .item part rest := by
  obtain ⟨hlength, hmax⟩ := hbulk
  exact ⟨_, parseBulk_payload hlength hmax rest⟩

theorem parsePayload_sound {len : ℤ} {buf : Bytes} :
    (∀ part rest, parsePayload len buf = .item part rest →
      buf = part ++ crlf ++ rest ∧ (part.length : ℤ) = len ∧ len ≤ maxBulkBytes) ∧
    ∀ fault, parsePayload len buf ≠ .reject (.stolFault fault) := by
  unfold parsePayload
  by_cases hlen : len < 0 ∨ maxBulkBytes < len
  · simp [hlen]
  by_cases hshort : buf.length < len.toNat + 2
  · simp [hlen, hshort]
  by_cases hend : (buf.drop len.toNat).take 2 ≠ crlf
  · simp [hlen, hshort, hend]
  rw [if_neg hlen, if_neg hshort, if_neg hend]
  refine ⟨?_, nofun⟩
  rintro part rest ⟨⟩
  have hcut : buf = buf.take len.toNat ++ (crlf ++ buf.drop (len.toNat + 2)) := by
    rw [← not_not.mp hend, ← List.drop_drop, List.take_append_drop, List.take_append_drop]
  refine ⟨by rw [List.append_assoc]; exact hcut, ?_, by omega⟩
  rw [List.length_take, min_eq_left (by omega)]
  omega

theorem parseBulk_sound {buf : Bytes} :
    (∀ part rest, parseBulk buf = .item part rest → ∃ bulk, buf = bulk ++ rest ∧ BulkText bulk) ∧
    ∀ fault, parseBulk buf = .reject (.stolFault fault) →
      ∃ text rest, buf = 36 :: (text ++ crlf ++ rest) ∧ Overlong text := by
  cases buf with
  | nil => exact ⟨by simp [parseBulk], by simp [parseBulk]⟩
  | cons marker buf =>
      by_cases hmarker : marker ≠ 36
      · simp [parseBulk, hmarker]
      obtain rfl : marker = 36 := not_not.mp hmarker
      rw [parseBulk, if_neg hmarker]
      obtain ⟨hitem, hreject⟩ := @parseNumberLine_sound buf
      cases hnumber : parseNumberLine buf with
      | more => exact ⟨by simp [Step.andThen], by simp [Step.andThen]⟩
      | reject found =>
          refine ⟨by simp [Step.andThen], fun fault hsame => ?_⟩
          obtain rfl : found = .stolFault fault := by simpa [Step.andThen] using hsame
          obtain ⟨text, rest, rfl, hoverlong⟩ := hreject fault hnumber
          exact ⟨text, rest, rfl, hoverlong⟩
      | item len after =>
          obtain ⟨text, rfl, hlength⟩ := hitem len after hnumber
          obtain ⟨hpayload, hnever⟩ := @parsePayload_sound len after
          refine ⟨fun part rest hpart => ?_, fun fault hsame => absurd hsame (hnever fault)⟩
          obtain ⟨rfl, rfl, hmax⟩ := hpayload part rest hpart
          exact ⟨36 :: (text ++ crlf ++ (part ++ crlf)), by simp, .mk hlength hmax⟩

theorem parseBulks_append {bulks : List Bytes} (hbulks : ∀ bulk ∈ bulks, BulkText bulk) (n : ℕ)
    (parts : Command) (rest : Bytes) :
    ∃ more, parseBulks (bulks.length + n) parts (bulks.flatten ++ rest) =
      parseBulks n (parts ++ more) rest := by
  induction bulks generalizing parts with
  | nil => exact ⟨[], by simp⟩
  | cons bulk bulks ih =>
      obtain ⟨part, hpart⟩ := parseBulk_text (hbulks bulk (List.mem_cons_self ..))
        (bulks.flatten ++ rest)
      obtain ⟨more, hmore⟩ := ih (fun b hb => hbulks b (List.mem_cons_of_mem _ hb)) (parts ++ [part])
      refine ⟨part :: more, ?_⟩
      calc parseBulks ((bulk :: bulks).length + n) parts ((bulk :: bulks).flatten ++ rest)
          = parseBulks (bulks.length + n) (parts ++ [part]) (bulks.flatten ++ rest) := by
            rw [List.length_cons, Nat.add_right_comm, parseBulks, List.flatten_cons,
              List.append_assoc, hpart, Step.andThen]
        _ = parseBulks n (parts ++ [part] ++ more) rest := hmore
        _ = parseBulks n (parts ++ part :: more) rest := by
            rw [List.append_assoc, List.singleton_append]

theorem parseBulks_sound {n : ℕ} {parts : Command} {buf : Bytes} :
    (∀ command rest, parseBulks n parts buf = .item command rest →
      ∃ bulks : List Bytes, bulks.length = n ∧ buf = bulks.flatten ++ rest ∧
        ∀ bulk ∈ bulks, BulkText bulk) ∧
    ∀ fault, parseBulks n parts buf = .reject (.stolFault fault) →
      ∃ (bulks : List Bytes) (text rest : Bytes), bulks.length < n ∧
        buf = bulks.flatten ++ 36 :: (text ++ crlf ++ rest) ∧
        (∀ bulk ∈ bulks, BulkText bulk) ∧ Overlong text := by
  induction n generalizing parts buf with
  | zero =>
      refine ⟨?_, nofun⟩
      rintro command rest ⟨⟩
      exact ⟨[], rfl, rfl, nofun⟩
  | succ n ih =>
      obtain ⟨hitem, hreject⟩ := @parseBulk_sound buf
      rw [parseBulks]
      cases hbulk : parseBulk buf with
      | more => exact ⟨nofun, nofun⟩
      | reject found =>
          refine ⟨nofun, fun fault hsame => ?_⟩
          obtain rfl : found = .stolFault fault := by simpa [Step.andThen] using hsame
          obtain ⟨text, rest, rfl, hoverlong⟩ := hreject fault hbulk
          exact ⟨[], text, rest, Nat.succ_pos n, rfl, nofun, hoverlong⟩
      | item part after =>
          obtain ⟨bulk, rfl, htext⟩ := hitem part after hbulk
          obtain ⟨ihItem, ihReject⟩ := @ih (parts ++ [part]) after
          refine ⟨fun command rest hcommand => ?_, fun fault hfault => ?_⟩
          · obtain ⟨bulks, rfl, rfl, hbulks⟩ := ihItem command rest hcommand
            exact ⟨bulk :: bulks, rfl, by simp, List.forall_mem_cons.mpr ⟨htext, hbulks⟩⟩
          · obtain ⟨bulks, text, rest, hlt, rfl, hbulks, hoverlong⟩ := ihReject fault hfault
            exact ⟨bulk :: bulks, text, rest, Nat.succ_lt_succ hlt, by simp,
              List.forall_mem_cons.mpr ⟨htext, hbulks⟩, hoverlong⟩

theorem parseOne_text {c : Bytes} (hc : CommandText c) (rest : Bytes) :
    ∃ command, parseOne (c ++ rest) = .item command rest := by
  cases hc with
  | @inline line hmarker hline =>
      refine ⟨splitWords [] line, ?_⟩
      have hparse : parseInline (line ++ crlf ++ rest) = .item (splitWords [] line) rest := by
        rw [parseInline, parseLine_line hline]
        rfl
      cases line with
      | nil => exact hparse
      | cons b line =>
          have hb : b ≠ 42 := by simpa using hmarker
          rw [List.cons_append, List.cons_append, parseOne, if_pos hb]
          exact hparse
  | @multibulk text bulks hlength hmax hbulks =>
      obtain ⟨more, hmore⟩ := parseBulks_append hbulks 0 [] rest
      refine ⟨more, ?_⟩
      have hshape : 42 :: (text ++ crlf ++ bulks.flatten) ++ rest =
          42 :: (text ++ crlf ++ (bulks.flatten ++ rest)) := by simp
      calc parseOne (42 :: (text ++ crlf ++ bulks.flatten) ++ rest)
          = parseElements bulks.length (bulks.flatten ++ rest) := by
            rw [hshape, parseOne, if_neg (by simp), parseNumberLine_length hlength, Step.andThen]
        _ = parseBulks bulks.length [] (bulks.flatten ++ rest) := by
            rw [parseElements, if_neg (by omega), Int.toNat_natCast]
        _ = .item more rest := hmore

/-- The two ways a command can start and not be complete. -/
theorem parseOne_expects {text : Bytes} (hoverlong : Overlong text) (rest : Bytes) :
    parseOne (42 :: (text ++ crlf ++ rest)) = .reject (.stolFault .outOfRange) ∧
    ∀ {header : Bytes} {n : ℤ} {bulks : List Bytes}, IsLength header n → n ≤ maxElements →
      (bulks.length : ℤ) < n → (∀ bulk ∈ bulks, BulkText bulk) →
      parseOne (42 :: (header ++ crlf ++ (bulks.flatten ++ 36 :: (text ++ crlf ++ rest)))) =
        .reject (.stolFault .outOfRange) := by
  constructor
  · rw [parseOne, if_neg (by simp), parseNumberLine_overlong hoverlong, Step.andThen]
  · intro header n bulks hlength hmax hmore hbulks
    obtain ⟨left, hleft⟩ : ∃ left : ℕ, n.toNat = bulks.length + (left + 1) :=
      ⟨n.toNat - bulks.length - 1, by omega⟩
    obtain ⟨more, hbulk⟩ := parseBulks_append hbulks (left + 1) [] (36 :: (text ++ crlf ++ rest))
    rw [parseOne, if_neg (by simp), parseNumberLine_length hlength, Step.andThen, parseElements,
      if_neg (by omega), hleft, hbulk, parseBulks, parseBulk, if_neg (by simp),
      parseNumberLine_overlong hoverlong]
    rfl

theorem parseOne_sound {buf : Bytes} :
    (∀ command rest, parseOne buf = .item command rest → ∃ c, buf = c ++ rest ∧ CommandText c) ∧
    ∀ fault, parseOne buf = .reject (.stolFault fault) → HasOverlongLength buf := by
  cases buf with
  | nil => exact ⟨by simp [parseOne], by simp [parseOne]⟩
  | cons marker buf =>
      by_cases hmarker : marker ≠ 42
      · rw [parseOne, if_pos hmarker, parseInline]
        cases hline : parseLine (marker :: buf) with
        | more => exact ⟨by simp [Step.andThen], by simp [Step.andThen]⟩
        | reject fault => exact absurd hline (parseLine_ne_reject _ fault)
        | item line after =>
            refine ⟨?_, by simp [Step.andThen]⟩
            rintro command rest ⟨⟩
            obtain ⟨hbuf, hfind⟩ := parseLine_sound hline
            refine ⟨line ++ crlf, hbuf, .inline (fun hhead => hmarker ?_) hfind⟩
            obtain ⟨tail, rfl⟩ := List.head?_eq_some_iff.mp hhead
            exact (List.cons.inj hbuf).1
      obtain rfl : marker = 42 := not_not.mp hmarker
      obtain ⟨hitem, hreject⟩ := @parseNumberLine_sound buf
      rw [parseOne, if_neg hmarker]
      cases hnumber : parseNumberLine buf with
      | more => exact ⟨by simp [Step.andThen], by simp [Step.andThen]⟩
      | reject found =>
          refine ⟨by simp [Step.andThen], fun fault hsame => ?_⟩
          obtain rfl : found = .stolFault fault := by simpa [Step.andThen] using hsame
          obtain ⟨text, rest, rfl, hoverlong⟩ := hreject fault hnumber
          have hcommands : ∀ c ∈ ([] : List Bytes), CommandText c :=
            List.forall_mem_nil _
          exact ⟨[42], text, rest, rfl, .array hcommands, hoverlong⟩
      | item n after =>
          obtain ⟨header, rfl, hlength⟩ := hitem n after hnumber
          simp only [Step.andThen, parseElements]
          by_cases hn : n < 0 ∨ maxElements < n
          · simp [hn]
          rw [if_neg hn]
          obtain ⟨hall, hsome⟩ := @parseBulks_sound n.toNat [] after
          refine ⟨fun command rest hcommand => ?_, fun fault hfault => ?_⟩
          · obtain ⟨bulks, hcount, rfl, hbulks⟩ := hall command rest hcommand
            obtain rfl : n = bulks.length := by omega
            exact ⟨42 :: (header ++ crlf ++ bulks.flatten), by simp,
              .multibulk hlength (by omega) hbulks⟩
          · obtain ⟨bulks, text, rest, hlt, rfl, hbulks, hoverlong⟩ := hsome fault hfault
            have hcommands : ∀ c ∈ ([] : List Bytes), CommandText c :=
              List.forall_mem_nil _
            refine ⟨42 :: (header ++ crlf ++ (bulks.flatten ++ [36])), text, rest, by simp, ?_,
              hoverlong⟩
            exact .bulk hcommands hlength (by omega) (by omega) hbulks

/-! ## Draining -/

theorem drain_commands {commands : List Bytes} (hcommands : ∀ c ∈ commands, CommandText c)
    (rest : Bytes) :
    (respParser.drain (commands.flatten ++ rest)).error = (respParser.drain rest).error := by
  induction commands with
  | nil => rfl
  | cons c commands ih =>
      obtain ⟨command, hparse⟩ := parseOne_text (hcommands c (List.mem_cons_self ..))
        (commands.flatten ++ rest)
      rw [List.flatten_cons, List.append_assoc, respParser.drain_of_item hparse]
      exact ih fun c' hc' => hcommands c' (List.mem_cons_of_mem _ hc')

theorem HasOverlongLength.cons {c rest : Bytes} (hc : CommandText c)
    (hrest : HasOverlongLength rest) : HasOverlongLength (c ++ rest) := by
  obtain ⟨before, text, after, rfl, hexpects, hoverlong⟩ := hrest
  refine ⟨c ++ before, text, after, by simp, ?_, hoverlong⟩
  cases hexpects with
  | @array commands hcommands =>
      have hall := List.forall_mem_cons.mpr ⟨hc, hcommands⟩
      simpa using Expects.array hall
  | @bulk commands header n bulks hcommands hlength hmax hmore hbulks =>
      have hall := List.forall_mem_cons.mpr ⟨hc, hcommands⟩
      simpa using Expects.bulk hall hlength hmax hmore hbulks

/-- What is no `RespError` is thrown for a length that does not fit, and for nothing else. -/
theorem drain_stolFault_iff (bytes : Bytes) :
    (∃ fault, (respParser.drain bytes).error = some (.stolFault fault)) ↔
      HasOverlongLength bytes := by
  constructor
  · -- Command by command, until the one that is rejected.
    induction hlength : bytes.length using Nat.strong_induction_on generalizing bytes with
    | _ length ih =>
        subst hlength
        rintro ⟨fault, herror⟩
        obtain ⟨hitem, hreject⟩ := @parseOne_sound bytes
        cases hparse : respParser.parse bytes with
        | more =>
            rw [respParser.drain_of_more hparse] at herror
            cases herror
        | reject found =>
            rw [respParser.drain_of_reject hparse] at herror
            cases herror
            exact hreject fault hparse
        | item command rest =>
            rw [respParser.drain_of_item hparse] at herror
            obtain ⟨c, rfl, hc⟩ := hitem command rest hparse
            exact (ih _ (respParser.item_lt hparse) rest rfl ⟨fault, herror⟩).cons hc
  · rintro ⟨before, text, rest, rfl, hexpects, hoverlong⟩
    refine ⟨.outOfRange, ?_⟩
    cases hexpects with
    | @array commands hcommands =>
        have hparse : respParser.parse (42 :: (text ++ crlf ++ rest)) = _ :=
          (parseOne_expects hoverlong rest).1
        rw [List.append_assoc, drain_commands hcommands]
        exact congrArg Drained.error (respParser.drain_of_reject hparse)
    | @bulk commands header n bulks hcommands hlength hmax hmore hbulks =>
        have hparse : respParser.parse
            (42 :: (header ++ crlf ++ (bulks.flatten ++ 36 :: (text ++ crlf ++ rest)))) = _ :=
          (parseOne_expects hoverlong rest).2 hlength hmax hmore hbulks
        have hshape : 42 :: (header ++ crlf ++ (bulks.flatten ++ [36])) ++ (text ++ crlf ++ rest) =
            42 :: (header ++ crlf ++ (bulks.flatten ++ 36 :: (text ++ crlf ++ rest))) := by simp
        rw [List.append_assoc, drain_commands hcommands, hshape]
        exact congrArg Drained.error (respParser.drain_of_reject hparse)

/-! ## Feeding -/

/-- What the calls of `feed` throw, when the caller goes on after a throw. -/
def feedOutcomes (parser : RespParser) : List Bytes → List (Option FeedFault)
  | [] => []
  | chunk :: chunks => (parser.feed chunk).1 :: feedOutcomes (parser.feed chunk).2 chunks

/-- The buffer of a parser stands for all that has been fed to it. -/
def StandsFor (parser : RespParser) (fed : Bytes) : Prop :=
  ∀ later, (respParser.drain (parser.buf ++ later)).error = (respParser.drain (fed ++ later)).error

theorem feed_fst (parser : RespParser) (chunk : Bytes) :
    (parser.feed chunk).1 = (respParser.drain (parser.buf ++ chunk)).error := by
  rw [RespParser.feed]
  cases (respParser.drain (parser.buf ++ chunk)).error <;> rfl

theorem StandsFor.feed {parser : RespParser} {fed : Bytes} (hstands : StandsFor parser fed)
    (chunk : Bytes) : StandsFor (parser.feed chunk).2 (fed ++ chunk) := by
  intro later
  rw [List.append_assoc, ← hstands, ← List.append_assoc, RespParser.feed]
  cases herror : (respParser.drain (parser.buf ++ chunk)).error with
  | none => rw [respParser.drain_append herror, Drained.behind]
  | some fault => rfl

theorem exists_stolFault_iff (chunks : List Bytes) {parser : RespParser} {fed : Bytes}
    (hstands : StandsFor parser fed)
    (hclean : ∀ fault, (respParser.drain fed).error ≠ some (.stolFault fault)) :
    (∃ fault, some (.stolFault fault) ∈ feedOutcomes parser chunks) ↔
      ∃ fault, (respParser.drain (fed ++ chunks.flatten)).error = some (.stolFault fault) := by
  induction chunks generalizing parser fed with
  | nil => simpa [feedOutcomes] using hclean
  | cons chunk chunks ih =>
      have hfirst : (parser.feed chunk).1 = (respParser.drain (fed ++ chunk)).error :=
        (feed_fst parser chunk).trans (hstands chunk)
      rw [feedOutcomes, hfirst, List.flatten_cons, ← List.append_assoc]
      by_cases hbad : ∃ fault, (respParser.drain (fed ++ chunk)).error = some (.stolFault fault)
      · -- The exception of this call is the one that all the bytes together lead to.
        obtain ⟨fault, hfault⟩ := hbad
        rw [respParser.drain_append_of_reject hfault, hfault]
        exact iff_of_true ⟨fault, List.mem_cons_self ..⟩ ⟨fault, rfl⟩
      · have hlater := ih (hstands.feed chunk) fun fault hfault => hbad ⟨fault, hfault⟩
        rw [← hlater]
        refine exists_congr fun fault => ?_
        rw [List.mem_cons, or_iff_right fun heq => hbad ⟨fault, heq.symm⟩]

/-- Every call of `feed` returns or throws a `RespError`, if and only if no number that is no
`long` stands where a length is read. -/
theorem feed_throws_respError_iff (chunks : List Bytes) :
    (∀ outcome ∈ feedOutcomes {} chunks, ∀ fault, outcome ≠ some (.stolFault fault)) ↔
      ¬ HasOverlongLength chunks.flatten := by
  have hstands : StandsFor {} [] := fun later => rfl
  rw [← drain_stolFault_iff, ← List.nil_append chunks.flatten,
    ← exists_stolFault_iff chunks hstands nofun]
  constructor
  · rintro hall ⟨fault, hmem⟩
    exact hall _ hmem fault rfl
  · rintro hnone outcome hmem fault rfl
    exact hnone ⟨fault, hmem⟩

/-- `*99999999999999999999`, in two chunks. -/
theorem array_size_out_of_range :
    feedOutcomes {} [ascii "*9999999999", ascii "9999999999\r\n"] =
      [none, some (.stolFault .outOfRange)] := by
  decide +kernel

end Reame.Arca
