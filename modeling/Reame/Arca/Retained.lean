import Reame.Arca.RespLengths

/-!
# What a connection makes the daemon keep

`ArcaServer::Config` has a limit for the size of a request, "a bad client must not be able
to buffer the daemon to death", and no code reads it.  `RespParser` keeps what it cannot
parse yet, and asks for more as long as a request is not complete:

* an inline line, a number of elements or a length without its line end may be of any
  length;
* each bulk string may have 64 MiB, and there may be 1024 of them.

`Unfinished` is the grammar of incomplete requests; `parse_one` asks for more exactly on
these (`parseOne_more_iff`).  So the parser keeps no more than a limit exactly if no
request of the client is longer than that while it is incomplete
(`retained_bounded_iff`), and a client that sends no line end exceeds every limit
(`no_limit_holds`).
-/

namespace Reame.Arca

open Wire Incremental

/-- `ArcaServer::Config::max_request_bytes`. -/
def maxRequestBytes : ℕ := 64 * 1024 * 1024

/-! ## The grammar -/

/-- A bulk string that is not complete. -/
inductive BulkPart : Bytes → Prop
  | nothing : BulkPart []
  | length {text : Bytes} (hopen : findCrlf text = none) : BulkPart (36 :: text)
  | payload {text part : Bytes} {n : ℕ} (hlength : IsLength text n)
      (hmax : (n : ℤ) ≤ maxBulkBytes) (hshort : part.length < n + 2) :
      BulkPart (36 :: (text ++ crlf ++ part))

/-- A request that is not complete: an inline line, a number of elements, or a command whose
elements are not all there. -/
inductive Unfinished : Bytes → Prop
  | inline {line : Bytes} (hmarker : line.head? ≠ some 42) (hopen : findCrlf line = none) :
      Unfinished line
  | elements {text : Bytes} (hopen : findCrlf text = none) : Unfinished (42 :: text)
  | multibulk {text part : Bytes} {n : ℕ} {bulks : List Bytes} (hlength : IsLength text n)
      (hmax : (n : ℤ) ≤ maxElements) (hmore : bulks.length < n)
      (hbulks : ∀ bulk ∈ bulks, BulkText bulk) (hpart : BulkPart part) :
      Unfinished (42 :: (text ++ crlf ++ (bulks.flatten ++ part)))

/-! ## The parser and the grammar -/

theorem parseLine_more_iff {buf : Bytes} : parseLine buf = .more ↔ findCrlf buf = none := by
  rw [parseLine]
  cases findCrlf buf <;> simp

theorem parseNumberLine_more_iff {buf : Bytes} :
    parseNumberLine buf = .more ↔ findCrlf buf = none := by
  rw [← parseLine_more_iff, parseNumberLine]
  cases parseLine buf with
  | more => simp [Step.andThen]
  | reject fault => simp [Step.andThen]
  | item digits rest =>
      simp only [Step.andThen, reduceCtorEq, iff_false]
      cases numberOf digits <;> simp

theorem parseBulk_more_iff {buf : Bytes} : parseBulk buf = .more ↔ BulkPart buf := by
  constructor
  · intro hmore
    cases buf with
    | nil => exact .nothing
    | cons marker buf =>
        by_cases hmarker : marker ≠ 36
        · simp [parseBulk, hmarker] at hmore
        obtain rfl : marker = 36 := not_not.mp hmarker
        rw [parseBulk, if_neg hmarker] at hmore
        cases hnumber : parseNumberLine buf with
        | more => exact .length (parseNumberLine_more_iff.mp hnumber)
        | reject fault => simp [hnumber, Step.andThen] at hmore
        | item len after =>
            obtain ⟨text, rfl, hlength⟩ := parseNumberLine_sound.1 len after hnumber
            rw [hnumber, Step.andThen, parsePayload] at hmore
            split_ifs at hmore with hbounds hshort
            lift len to ℕ using (by omega)
            exact .payload hlength (by omega) (by simpa using hshort)
  · intro hpart
    cases hpart with
    | nothing => rfl
    | length hopen =>
        rw [parseBulk, if_neg (by simp), parseNumberLine_more_iff.mpr hopen, Step.andThen]
    | payload hlength hmax hshort =>
        rw [parseBulk, if_neg (by simp), parseNumberLine_length hlength, Step.andThen, parsePayload,
          if_neg (by omega), if_pos (by simpa using hshort)]

theorem parseBulks_more_iff {n : ℕ} {parts : Command} {buf : Bytes} :
    parseBulks n parts buf = .more ↔
      ∃ (bulks : List Bytes) (part : Bytes), bulks.length < n ∧ buf = bulks.flatten ++ part ∧
        (∀ bulk ∈ bulks, BulkText bulk) ∧ BulkPart part := by
  constructor
  · intro hmore
    induction n generalizing parts buf with
    | zero => cases hmore
    | succ n ih =>
        rw [parseBulks] at hmore
        cases hbulk : parseBulk buf with
        | more =>
            exact ⟨[], buf, Nat.succ_pos n, rfl, List.forall_mem_nil _,
              parseBulk_more_iff.mp hbulk⟩
        | reject fault => simp [hbulk, Step.andThen] at hmore
        | item value after =>
            obtain ⟨bulk, rfl, htext⟩ := parseBulk_sound.1 value after hbulk
            rw [hbulk, Step.andThen] at hmore
            obtain ⟨bulks, part, hlt, rfl, hbulks, hpart⟩ := ih hmore
            exact ⟨bulk :: bulks, part, Nat.succ_lt_succ hlt, by simp,
              List.forall_mem_cons.mpr ⟨htext, hbulks⟩, hpart⟩
  · rintro ⟨bulks, part, hlt, rfl, hbulks, hpart⟩
    obtain ⟨left, rfl⟩ : ∃ left, n = bulks.length + (left + 1) :=
      ⟨n - bulks.length - 1, by omega⟩
    obtain ⟨more, hsame⟩ := parseBulks_append hbulks (left + 1) parts part
    rw [hsame, parseBulks, parseBulk_more_iff.mpr hpart, Step.andThen]

theorem parseInline_more_iff {buf : Bytes} : parseInline buf = .more ↔ findCrlf buf = none := by
  rw [← parseLine_more_iff, parseInline]
  cases parseLine buf <;> simp [Step.andThen]

/-- The parser asks for more exactly if the request is not complete. -/
theorem parseOne_more_iff {buf : Bytes} : parseOne buf = .more ↔ Unfinished buf := by
  constructor
  · intro hmore
    cases buf with
    | nil => exact .inline (by simp) rfl
    | cons marker buf =>
        by_cases hmarker : marker ≠ 42
        · rw [parseOne, if_pos hmarker] at hmore
          exact .inline (by simpa using hmarker) (parseInline_more_iff.mp hmore)
        obtain rfl : marker = 42 := not_not.mp hmarker
        rw [parseOne, if_neg hmarker] at hmore
        cases hnumber : parseNumberLine buf with
        | more => exact .elements (parseNumberLine_more_iff.mp hnumber)
        | reject fault => simp [hnumber, Step.andThen] at hmore
        | item n after =>
            obtain ⟨text, rfl, hlength⟩ := parseNumberLine_sound.1 n after hnumber
            rw [hnumber, Step.andThen, parseElements] at hmore
            split_ifs at hmore with hbounds
            lift n to ℕ using (by omega)
            obtain ⟨bulks, part, hlt, rfl, hbulks, hpart⟩ := parseBulks_more_iff.mp hmore
            exact .multibulk hlength (by omega) hlt hbulks hpart
  · intro hunfinished
    cases hunfinished with
    | inline hmarker hopen =>
        cases buf with
        | nil => rfl
        | cons marker buf =>
            have hne : marker ≠ 42 := by simpa using hmarker
            rw [parseOne, if_pos hne, parseInline_more_iff.mpr hopen]
    | elements hopen =>
        rw [parseOne, if_neg (by simp), parseNumberLine_more_iff.mpr hopen, Step.andThen]
    | multibulk hlength hmax hmore hbulks hpart =>
        rw [parseOne, if_neg (by simp), parseNumberLine_length hlength, Step.andThen, parseElements,
          if_neg (by omega), Int.toNat_natCast]
        exact parseBulks_more_iff.mpr ⟨_, _, hmore, rfl, hbulks, hpart⟩

/-! ## What is kept -/

theorem drain_unfinished {commands : List Bytes} (hcommands : ∀ c ∈ commands, CommandText c)
    {pending : Bytes} (hpending : Unfinished pending) :
    (respParser.drain (commands.flatten ++ pending)).error = none ∧
      (respParser.drain (commands.flatten ++ pending)).rest = pending := by
  induction commands with
  | nil =>
      rw [List.flatten_nil, List.nil_append,
        respParser.drain_of_more (parseOne_more_iff.mpr hpending)]
      exact ⟨rfl, rfl⟩
  | cons c commands ih =>
      obtain ⟨command, hparse⟩ := parseOne_text (hcommands c (List.mem_cons_self ..))
        (commands.flatten ++ pending)
      rw [List.flatten_cons, List.append_assoc, respParser.drain_of_item hparse]
      exact ih fun c' hc' => hcommands c' (List.mem_cons_of_mem _ hc')

/-- What is drained without an error is complete commands and one that is not complete. -/
theorem drain_grammar {input : Bytes} (hnone : (respParser.drain input).error = none) :
    ∃ commands : List Bytes, (∀ c ∈ commands, CommandText c) ∧
      input = commands.flatten ++ (respParser.drain input).rest ∧
      Unfinished (respParser.drain input).rest := by
  induction hlength : input.length using Nat.strong_induction_on generalizing input with
  | _ length ih =>
      subst hlength
      cases hparse : respParser.parse input with
      | more =>
          rw [respParser.drain_of_more hparse]
          exact ⟨[], nofun, rfl, parseOne_more_iff.mp hparse⟩
      | reject found =>
          rw [respParser.drain_of_reject hparse] at hnone
          cases hnone
      | item command rest =>
          obtain ⟨c, hinput, hc⟩ := parseOne_sound.1 command rest hparse
          have hdrain := respParser.drain_of_item hparse
          rw [hdrain] at hnone ⊢
          obtain ⟨commands, hcommands, hrest, hunfinished⟩ :=
            ih _ (respParser.item_lt hparse) hnone rfl
          refine ⟨c :: commands, List.forall_mem_cons.mpr ⟨hc, hcommands⟩, ?_, hunfinished⟩
          rw [List.flatten_cons, List.append_assoc, hinput]
          exact congrArg _ hrest

/-- As long as nothing was thrown, the parser never keeps more than a limit exactly if no request
of the client is longer than that while it is incomplete. -/
theorem retained_bounded_iff (allowance : ℕ) (chunks : List (Bytes × Bool)) :
    (∀ n, (feedChunks {} (chunks.take n)).fault = none →
      (feedChunks {} (chunks.take n)).parser.buf.length ≤ maxRequestBytes + allowance) ↔
    ∀ (n : ℕ) (commands : List Bytes) (pending : Bytes), (∀ c ∈ commands, CommandText c) →
      Unfinished pending → bytesOf (chunks.take n) = commands.flatten ++ pending →
        pending.length ≤ maxRequestBytes + allowance := by
  have hquiet : respParser.drain ({} : RespParser).buf = ⟨[], [], none⟩ := rfl
  constructor
  · intro hbounded n commands pending hcommands hpending hbytes
    obtain ⟨hfault, -, hbuf⟩ := feedChunks_drain hquiet (chunks.take n)
    obtain ⟨hnone, hrest⟩ := drain_unfinished hcommands hpending
    rw [List.nil_append, hbytes] at hfault hbuf
    have hle := hbounded n (hfault.trans hnone)
    rwa [hbuf hnone, hrest] at hle
  · intro hrequests n hnone
    obtain ⟨hfault, -, hbuf⟩ := feedChunks_drain hquiet (chunks.take n)
    rw [List.nil_append] at hfault hbuf
    have herror := hfault.symm.trans hnone
    obtain ⟨commands, hcommands, hbytes, hpending⟩ := drain_grammar herror
    rw [hbuf herror]
    exact hrequests n commands _ hcommands hpending hbytes

/-- A client that sends no line end: whatever the allowance, the parser keeps more. -/
theorem no_limit_holds :
    ¬ ∃ allowance, ∀ chunks : List (Bytes × Bool), (∀ chunk ∈ chunks, chunk.1.length ≤ 8192) →
      (feedChunks {} chunks).fault = none →
        (feedChunks {} chunks).parser.buf.length ≤ maxRequestBytes + allowance := by
  rintro ⟨allowance, hlimit⟩
  have hquiet : respParser.drain ({} : RespParser).buf = ⟨[], [], none⟩ := rfl
  let chunks : List (Bytes × Bool) :=
    List.replicate (maxRequestBytes + allowance + 1) ([97], true)
  have hbytes : bytesOf chunks = List.replicate (maxRequestBytes + allowance + 1) 97 := by
    simp [bytesOf, chunks]
  have hopen : Unfinished (List.replicate (maxRequestBytes + allowance + 1) 97) := by
    refine .inline (by simp [List.head?_replicate]) (findCrlf_eq_none fun hmem => ?_).1
    exact absurd (List.eq_of_mem_replicate hmem) (by decide)
  have hcommands : ∀ c ∈ ([] : List Bytes), CommandText c := List.forall_mem_nil _
  obtain ⟨hnone, hrest⟩ := drain_unfinished hcommands hopen
  obtain ⟨hfault, -, hbuf⟩ := feedChunks_drain hquiet chunks
  rw [List.flatten_nil, List.nil_append] at hnone hrest
  rw [List.nil_append, hbytes] at hfault hbuf
  have hshort : ∀ chunk ∈ chunks, chunk.1.length ≤ 8192 := by
    intro chunk hchunk
    rw [List.eq_of_mem_replicate hchunk]
    norm_num
  have hle := hlimit chunks hshort (hfault.trans hnone)
  rw [hbuf hnone, hrest, List.length_replicate] at hle
  omega

end Reame.Arca
