import Reame.Arca.Resp
import Reame.Foundation.Incremental

/-!
# The request parser

`RespParser` turns the bytes of a connection into commands.  `parseOne` reads one from the
buffer at the current offset, which is the front of the list here; `feed` appends what has
arrived, reads as many commands as there are and drops their bytes.  When it throws, the
commands read before stay harvestable and the buffer keeps all its bytes.

Each branch of the parser is settled by the bytes it has seen, so it is an
`Incremental.Parser` (`respParser`).
-/

namespace Reame.Arca

open Wire Incremental

/-- What `feed` throws: a `RespError`, or an exception of `std::stol`. -/
inductive FeedFault
  | respError (what : Bytes)
  | stolFault (fault : StolFault)
deriving DecidableEq, Repr

/-- A command: its name and arguments. -/
abbrev Command := List Bytes

/-- `kMaxElements`. -/
def maxElements : ℤ := 1024

/-- `kMaxBulkBytes`. -/
def maxBulkBytes : ℤ := 64 * 1024 * 1024

/-- `std::to_string` of a `long`. -/
def decimalLong (n : ℤ) : Bytes := if n < 0 then 45 :: decimal n.natAbs else decimal n.natAbs

/-- The digits of a number line, without a minus. -/
def unsignedPart (digits : Bytes) : Bytes := if digits.head? = some 45 then digits.drop 1 else digits

/-- The text up to the line end, and what follows it. -/
def parseLine (buf : Bytes) : Step UInt8 Bytes FeedFault :=
  match findCrlf buf with
  | none => .more
  | some eol => .item (buf.take eol) (buf.drop (eol + 2))

/-- The number that a line stands for. -/
def numberOf (digits : Bytes) : Except FeedFault ℤ :=
  if digits = [] then .error (.respError (ascii "empty length in RESP input"))
  else if unsignedPart digits = [] then .error (.respError (ascii "bare minus in RESP length"))
  else if ¬ (unsignedPart digits).all isDigit then
    .error (.respError (ascii "non-numeric RESP length: " ++ digits))
  else (stol digits).mapError .stolFault

/-- `parse_number_line`: the number up to the line end, and what follows it. -/
def parseNumberLine (buf : Bytes) : Step UInt8 ℤ FeedFault :=
  (parseLine buf).andThen fun digits rest =>
    match numberOf digits with
    | .error fault => .reject fault
    | .ok n => .item n rest

/-- The words of an inline command; `word` is the one being read. -/
def splitWords : Bytes → Bytes → Command
  | word, [] => if word = [] then [] else [word]
  | word, b :: rest =>
      if b = 32 then (if word = [] then [] else [word]) ++ splitWords [] rest
      else splitWords (word ++ [b]) rest

/-- An inline command: a plain line. -/
def parseInline (buf : Bytes) : Step UInt8 Command FeedFault :=
  (parseLine buf).andThen fun line rest => .item (splitWords [] line) rest

/-- The payload of a bulk string of the given length, with its line end. -/
def parsePayload (len : ℤ) (buf : Bytes) : Step UInt8 Bytes FeedFault :=
  if len < 0 ∨ maxBulkBytes < len then
    .reject (.respError (ascii "unreasonable RESP bulk length: " ++ decimalLong len))
  else if buf.length < len.toNat + 2 then .more
  else if (buf.drop len.toNat).take 2 ≠ crlf then
    .reject (.respError (ascii "bulk payload not terminated by CRLF"))
  else .item (buf.take len.toNat) (buf.drop (len.toNat + 2))

/-- One bulk string. -/
def parseBulk : Bytes → Step UInt8 Bytes FeedFault
  | [] => .more
  | marker :: rest =>
      if marker ≠ 36 then .reject (.respError (ascii "expected bulk string marker '$'"))
      else (parseNumberLine rest).andThen parsePayload

/-- The bulk strings of a multibulk command, behind those read already. -/
def parseBulks : ℕ → Command → Bytes → Step UInt8 Command FeedFault
  | 0, parts, buf => .item parts buf
  | n + 1, parts, buf => (parseBulk buf).andThen fun part rest => parseBulks n (parts ++ [part]) rest

/-- The elements of a multibulk command, whose number has been read. -/
def parseElements (n : ℤ) (buf : Bytes) : Step UInt8 Command FeedFault :=
  if n < 0 ∨ maxElements < n then
    .reject (.respError (ascii "unreasonable RESP array size: " ++ decimalLong n))
  else parseBulks n.toNat [] buf

/-- `RespParser::parse_one`. -/
def parseOne : Bytes → Step UInt8 Command FeedFault
  | [] => .more
  | marker :: rest =>
      if marker ≠ 42 then parseInline (marker :: rest)
      else (parseNumberLine rest).andThen parseElements

/-! ## Every branch is settled -/

/-- What is cut off a line does not change with more input. -/
theorem take_drop_append {buf : Bytes} {n : ℕ} (hle : n ≤ buf.length) (later : Bytes) :
    (buf ++ later).take n = buf.take n ∧ (buf ++ later).drop n = buf.drop n ++ later :=
  ⟨List.take_append_of_le_length hle, List.drop_append_of_le_length hle⟩

theorem length_of_parseLine {buf line rest : Bytes} (hline : parseLine buf = .item line rest) :
    rest.length + 2 ≤ buf.length := by
  unfold parseLine at hline
  cases hfind : findCrlf buf with
  | none => simp [hfind] at hline
  | some eol =>
      simp only [hfind, Step.item.injEq] at hline
      have hle := (findCrlf_append hfind []).1
      rw [← hline.2, List.length_drop]
      omega

theorem settled_parseLine : Settled parseLine where
  item_le := by
    intro input line rest hitem
    have hlength := length_of_parseLine hitem
    omega
  item_append := by
    intro input line rest hitem later
    unfold parseLine at hitem ⊢
    cases hfind : findCrlf input with
    | none => simp [hfind] at hitem
    | some eol =>
        obtain ⟨hle, hlater⟩ := findCrlf_append hfind later
        simp only [hfind, Step.item.injEq] at hitem
        simp only [hlater, Step.item.injEq]
        rw [(take_drop_append (by omega) later).1, (take_drop_append hle later).2, hitem.1, hitem.2]
        exact ⟨rfl, rfl⟩
  reject_append := by
    intro input fault hreject
    unfold parseLine at hreject
    split at hreject <;> cases hreject

theorem settled_parseNumberLine : Settled parseNumberLine := by
  refine settled_parseLine.andThen fun digits => ?_
  cases numberOf digits with
  | error fault => exact settled_reject fault
  | ok n => exact settled_item n

theorem settled_parsePayload (len : ℤ) : Settled (parsePayload len) := by
  unfold parsePayload
  by_cases hlen : len < 0 ∨ maxBulkBytes < len
  · simp only [if_pos hlen]
    exact settled_reject _
  simp only [if_neg hlen]
  -- Once the payload and its line end have arrived, both branches look at these bytes only.
  have hcut : ∀ {input : Bytes}, ¬ input.length < len.toNat + 2 → ∀ later,
      ¬ (input ++ later).length < len.toNat + 2 ∧
      ((input ++ later).drop len.toNat).take 2 = (input.drop len.toNat).take 2 ∧
      (input ++ later).take len.toNat = input.take len.toNat ∧
      (input ++ later).drop (len.toNat + 2) = input.drop (len.toNat + 2) ++ later := by
    intro input hlong later
    have hdrop : (input ++ later).drop len.toNat = input.drop len.toNat ++ later :=
      (take_drop_append (by omega) later).2
    refine ⟨by rw [List.length_append]; omega, ?_, (take_drop_append (by omega) later).1,
      (take_drop_append (by omega) later).2⟩
    have htwo : 2 ≤ (input.drop len.toNat).length := by
      rw [List.length_drop]
      omega
    rw [hdrop]
    exact (take_drop_append htwo later).1
  refine ⟨?_, ?_, ?_⟩
  · intro input value rest hitem
    split_ifs at hitem
    cases hitem
    simp
  · intro input value rest hitem later
    split_ifs at hitem with hshort hend
    cases hitem
    obtain ⟨hlong, hsame, htake, hdrop⟩ := hcut hshort later
    rw [if_neg hlong, hsame, if_neg hend, htake, hdrop]
  · intro input fault hreject later
    split_ifs at hreject with hshort hend
    obtain ⟨hlong, hsame, -, -⟩ := hcut hshort later
    rw [if_neg hlong, hsame, if_pos hend]
    exact hreject

theorem settled_parseBulk : Settled parseBulk := by
  refine (Settled.ofHead rfl fun marker => ?_).1
  by_cases hmarker : marker ≠ 36
  · simp only [parseBulk, if_pos hmarker]
    exact settled_reject _
  · simp only [parseBulk, if_neg hmarker]
    exact settled_parseNumberLine.andThen settled_parsePayload

theorem settled_parseBulks (n : ℕ) (parts : Command) : Settled (parseBulks n parts) := by
  induction n generalizing parts with
  | zero => exact settled_item parts
  | succ n ih => exact settled_parseBulk.andThen fun part => ih (parts ++ [part])

theorem settled_parseElements (n : ℤ) : Settled (parseElements n) := by
  unfold parseElements
  by_cases hn : n < 0 ∨ maxElements < n
  · simp only [if_pos hn]
    exact settled_reject _
  · simp only [if_neg hn]
    exact settled_parseBulks n.toNat []

theorem settled_inline (marker : UInt8) : Settled fun rest => parseInline (marker :: rest) := by
  have hsettled : Settled parseInline :=
    settled_parseLine.andThen fun line => settled_item (splitWords [] line)
  refine ⟨?_, fun hitem later => hsettled.item_append hitem later,
    fun hreject later => hsettled.reject_append hreject later⟩
  -- The line end is two bytes long, so the marker is more than made up for.
  intro input words rest hitem
  cases hline : parseLine (marker :: input) with
  | more => simp [parseInline, hline, Step.andThen] at hitem
  | reject fault => simp [parseInline, hline, Step.andThen] at hitem
  | item line after =>
      simp only [parseInline, hline, Step.andThen, Step.item.injEq] at hitem
      have hlength := length_of_parseLine hline
      rw [← hitem.2]
      simp only [List.length_cons] at hlength
      omega

theorem settled_parseOne : Settled parseOne ∧
    ∀ {input value rest}, parseOne input = .item value rest → rest.length < input.length := by
  refine Settled.ofHead rfl fun marker => ?_
  by_cases hmarker : marker ≠ 42
  · simp only [parseOne, if_pos hmarker]
    exact settled_inline marker
  · simp only [parseOne, if_neg hmarker]
    exact settled_parseNumberLine.andThen settled_parseElements

/-- `parse_one` as an incremental parser. -/
def respParser : Parser UInt8 Command FeedFault where
  parse := parseOne
  settled := settled_parseOne.1
  item_lt := settled_parseOne.2

/-! ## The connection -/

/-- `RespParser`. -/
structure RespParser where
  buf : Bytes := []
  ready : List Command := []
deriving DecidableEq, Repr

namespace RespParser

/-- `feed`: what it throws, and the parser after it.  An empty command is not kept; a throw
leaves the buffer as it was filled. -/
def feed (parser : RespParser) (bytes : Bytes) : Option FeedFault × RespParser :=
  let buf := parser.buf ++ bytes
  let drained := respParser.drain buf
  let ready := parser.ready ++ drained.items.filter (· ≠ [])
  match drained.error with
  | none => (none, { buf := drained.rest, ready })
  | some fault => (some fault, { buf, ready })

/-- `take`. -/
def take (parser : RespParser) : List Command × RespParser :=
  (parser.ready, { parser with ready := [] })

end RespParser

/-- What became of a connection: the commands taken, the parser, and what was thrown. -/
structure FeedOutcome where
  taken : List Command
  parser : RespParser
  fault : Option FeedFault
deriving DecidableEq, Repr

/-- All commands read on the connection. -/
def FeedOutcome.commands (connection : FeedOutcome) : List Command :=
  connection.taken ++ connection.parser.ready

/-- Feed chunks, and call `take` after those that are marked; a throw ends the
connection. -/
def feedChunks (parser : RespParser) : List (Bytes × Bool) → FeedOutcome
  | [] => ⟨[], parser, none⟩
  | (chunk, takes) :: chunks =>
      match parser.feed chunk with
      | (some fault, parser) => ⟨[], parser, some fault⟩
      | (none, parser) =>
          let (taken, parser) := if takes then parser.take else ([], parser)
          let connection := feedChunks parser chunks
          { connection with taken := taken ++ connection.taken }

/-- The bytes of some chunks. -/
def bytesOf (chunks : List (Bytes × Bool)) : Bytes := (chunks.map Prod.fst).flatten

/-- Feeding chunks is draining their bytes at once. -/
theorem feedChunks_drain {parser : RespParser}
    (hquiet : respParser.drain parser.buf = ⟨[], parser.buf, none⟩) (chunks : List (Bytes × Bool)) :
    let drained := respParser.drain (parser.buf ++ bytesOf chunks)
    let connection := feedChunks parser chunks
    connection.fault = drained.error ∧
      connection.commands = parser.ready ++ drained.items.filter (· ≠ []) ∧
      (drained.error = none → connection.parser.buf = drained.rest) := by
  induction chunks generalizing parser with
  | nil => simp [bytesOf, hquiet, feedChunks, FeedOutcome.commands]
  | cons head chunks ih =>
      obtain ⟨chunk, takes⟩ := head
      have hbytes : parser.buf ++ bytesOf ((chunk, takes) :: chunks) =
          parser.buf ++ chunk ++ bytesOf chunks := by simp [bytesOf]
      rw [hbytes, feedChunks, RespParser.feed]
      cases herror : (respParser.drain (parser.buf ++ chunk)).error with
      | some fault =>
          rw [respParser.drain_append_of_reject herror]
          exact ⟨rfl, rfl, nofun⟩
      | none =>
          have hrest := respParser.drain_rest herror
          rw [respParser.drain_append herror]
          -- Taking the commands empties `ready` only, so both cases go on from the same buffer.
          cases takes with
          | true =>
              obtain ⟨hfault, hcommands, hbuf⟩ := @ih ⟨_, []⟩ hrest
              refine ⟨hfault, ?_, hbuf⟩
              simp only [FeedOutcome.commands, List.nil_append] at hcommands
              simp [FeedOutcome.commands, RespParser.take, Drained.behind, hcommands]
          | false =>
              obtain ⟨hfault, hcommands, hbuf⟩ := @ih ⟨_, _⟩ hrest
              refine ⟨hfault, ?_, hbuf⟩
              simpa [FeedOutcome.commands, Drained.behind] using hcommands

/-- What is read on a connection does not depend on how its bytes are cut into chunks, nor on
when the commands are taken. -/
theorem feed_unsliced (chunks : List (Bytes × Bool)) :
    let whole := ({} : RespParser).feed (bytesOf chunks)
    let connection := feedChunks {} chunks
    connection.fault = whole.1 ∧ connection.commands = whole.2.ready ∧
      (whole.1 = none → connection.parser.buf = whole.2.buf) := by
  have hquiet : respParser.drain ({} : RespParser).buf = ⟨[], [], none⟩ := rfl
  obtain ⟨hfault, hcommands, hbuf⟩ := feedChunks_drain hquiet chunks
  rw [RespParser.feed]
  cases herror : (respParser.drain (({} : RespParser).buf ++ bytesOf chunks)).error with
  | none => exact ⟨hfault.trans herror, hcommands, fun _ => hbuf herror⟩
  | some fault => exact ⟨hfault.trans herror, hcommands, nofun⟩

end Reame.Arca
