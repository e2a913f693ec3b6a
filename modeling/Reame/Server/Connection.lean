import Reame.Foundation.Runs
import Reame.Server.HttpParser

/-!
# Reading a request

`handle_connection` reads until the headers are there, looks for the length of the body in
them, reads on until the body is there, and gives what it has to `parse_http_request`.  How
much it has depends on how the bytes were sliced into reads, since the last read may bring
more than was needed.

Two scanners look at the headers.  The one in the loop takes the *first* line that is called
`content-length` to the letter, with the request line among them; the parser takes the *last*
header line that is called so when the blanks around its name are left out.  Where they
disagree,

* a parser that wants less than was read finds its body in every slicing;
* a parser that wants more rejects the request when a read ends where the loop is content,
  and accepts it when more happens to be there.

So a stream is read alike in every slicing, and never rejected for a body that is still under
way, exactly if the second case does not come up (`slicing_iff`).
-/

namespace Reame.Server

open Wire

/-! ## The connection -/

/-- The length of the header scan: the first line that is called `content-length`. -/
def scanLength : List Bytes → ℕ
  | [] => 0
  | line :: lines =>
      match splitLine line with
      | none => scanLength lines
      | some (name, value) =>
          if name.map toLower = ascii "content-length" then strtoull value else scanLength lines

/-- The lines of the header scan, the request line among them. -/
def scannedLines (data : Bytes) (headersEnd : ℕ) : List Bytes :=
  let head := data.take headersEnd
  linesFrom head head.length head.length 0

/-- A connection whose request is being read, or what the reading has led to. -/
inductive Connection
  | headers (data : Bytes)
  | body (data : Bytes) (headersEnd contentLength : ℕ)
  | complete (data : Bytes)
  | tooLarge
  | flood
deriving DecidableEq, Repr

/-- The condition of the loop that reads the body. -/
def readBody (data : Bytes) (headersEnd contentLength : ℕ) : Connection :=
  if data.length - headersEnd - 4 < contentLength then .body data headersEnd contentLength
  else .complete data

/-- The loops of `handle_connection`, for what one read brings. -/
def Connection.receive (maxBytes : ℕ) : Connection → Bytes → Connection
  | .headers data, piece =>
      let data := data ++ piece
      match find (crlf ++ crlf) data with
      | none => if 64 * 1024 < data.length then .flood else .headers data
      | some headersEnd =>
          let contentLength := scanLength (scannedLines data headersEnd)
          if maxBytes < contentLength then .tooLarge
          else readBody data headersEnd contentLength
  | .body data headersEnd contentLength, piece => readBody (data ++ piece) headersEnd contentLength
  | done, _ => done

/-- What `handle_connection` comes to: it waits for more bytes, closes the connection, or
answers with 413, with 400, or as `ApiHandler` does. -/
inductive Outcome
  | waits
  | closed
  | payloadTooLarge
  | badRequest
  | request (r : HttpRequest)
deriving DecidableEq, Repr

/-- What is made of the bytes that have been read. -/
def Connection.outcome : Connection → Outcome
  | .headers _ => .waits
  | .body .. => .waits
  | .flood => .closed
  | .tooLarge => .payloadTooLarge
  | .complete data =>
      match parseHttpRequest data with
      | none => .badRequest
      | some r => .request r

theorem Connection.outcome_complete (data : Bytes) :
    (Connection.complete data).outcome =
      match parseHttpRequest data with
      | none => .badRequest
      | some r => .request r := rfl

/-- A connection behind the reads. -/
def handleConnection (maxBytes : ℕ) (reads : List Bytes) : Connection :=
  Runs.run (Connection.receive maxBytes) (.headers []) reads

/-! ## What has been read -/

theorem scanLength_eq (lines : List Bytes) :
    scanLength lines = (lengths id lines).head?.getD 0 := by
  have hascii : (ascii "Content-Length").map toLower = ascii "content-length" := by
    decide +kernel
  induction lines with
  | nil => rfl
  | cons line lines ih =>
      rw [scanLength, lengths, List.filterMap_cons]
      cases hsplit : splitLine line with
      | none => exact ih
      | some entry =>
          have hname : SameName (id entry.1) (ascii "Content-Length") ↔
              entry.1.map toLower = ascii "content-length" := by
            unfold SameName
            rw [hascii]
            rfl
          rw [Option.bind_some]
          by_cases hcalled : entry.1.map toLower = ascii "content-length"
          · rw [if_pos (hname.mpr hcalled)]
            exact if_pos hcalled
          · rw [if_neg (mt hname.mp hcalled)]
            exact (if_neg hcalled).trans ih

/-- The header scan is settled once the empty line is there. -/
theorem scannedLines_append {data : Bytes} {headersEnd : ℕ}
    (hfind : find (crlf ++ crlf) data = some headersEnd) (later : Bytes) :
    scannedLines (data ++ later) headersEnd = scannedLines data headersEnd := by
  have hlength := find_length hfind
  have htake : (data ++ later).take headersEnd = data.take headersEnd :=
    List.take_append_of_le_length (by omega)
  unfold scannedLines
  rw [htake]

/-- The length that the loop reads up to: the first one, of names as they are. -/
def readLength (data : Bytes) (headersEnd : ℕ) : ℕ :=
  (lengths id (scannedLines data headersEnd)).head?.getD 0

theorem readLength_append {data : Bytes} {headersEnd : ℕ}
    (hfind : find (crlf ++ crlf) data = some headersEnd) (later : Bytes) :
    readLength (data ++ later) headersEnd = readLength data headersEnd := by
  rw [readLength, scannedLines_append hfind later]
  rfl

/-- How far a connection is when it has read a text. -/
def Received (maxBytes : ℕ) (text : Bytes) : Connection → Prop
  | .headers data => data = text ∧ find (crlf ++ crlf) text = none
  | .body data headersEnd contentLength =>
      data = text ∧ find (crlf ++ crlf) text = some headersEnd ∧
        contentLength = readLength text headersEnd ∧ contentLength ≤ maxBytes ∧
          text.length < headersEnd + 4 + contentLength
  | .complete data =>
      data <+: text ∧ ∃ headersEnd, find (crlf ++ crlf) data = some headersEnd ∧
        readLength data headersEnd ≤ maxBytes ∧
          headersEnd + 4 + readLength data headersEnd ≤ data.length
  | .tooLarge =>
      ∃ headersEnd, find (crlf ++ crlf) text = some headersEnd ∧
        maxBytes < readLength text headersEnd
  | .flood => ∃ part, part <+: text ∧ find (crlf ++ crlf) part = none ∧ 64 * 1024 < part.length

variable {maxBytes : ℕ} {text stream : Bytes}

theorem received_readBody {headersEnd : ℕ} (hfind : find (crlf ++ crlf) text = some headersEnd)
    (hmax : readLength text headersEnd ≤ maxBytes) :
    Received maxBytes text (readBody text headersEnd (readLength text headersEnd)) := by
  have hlength : headersEnd + 4 ≤ text.length := find_length hfind
  unfold readBody
  split_ifs with hshort
  · exact ⟨rfl, hfind, rfl, hmax, by omega⟩
  · exact ⟨List.prefix_rfl, headersEnd, hfind, hmax, by omega⟩

/-- One read. -/
theorem Received.receive {connection : Connection} (hreceived : Received maxBytes text connection)
    (piece : Bytes) : Received maxBytes (text ++ piece) (connection.receive maxBytes piece) := by
  cases connection with
  | headers data =>
      obtain ⟨rfl, -⟩ := hreceived
      unfold Connection.receive
      dsimp only
      cases hfind : find (crlf ++ crlf) (data ++ piece) with
      | none =>
          dsimp only
          split_ifs with hlong
          · exact ⟨data ++ piece, List.prefix_rfl, hfind, hlong⟩
          · exact ⟨rfl, hfind⟩
      | some headersEnd =>
          dsimp only
          rw [scanLength_eq]
          show Received maxBytes _ (if maxBytes < readLength (data ++ piece) headersEnd then _ else _)
          split_ifs with hlarge
          · exact ⟨headersEnd, hfind, hlarge⟩
          · exact received_readBody hfind (not_lt.mp hlarge)
  | body data headersEnd contentLength =>
      obtain ⟨rfl, hfind, rfl, hmax, -⟩ := hreceived
      have hsame := readLength_append hfind piece
      rw [← hsame] at hmax
      show Received maxBytes _ (readBody (data ++ piece) headersEnd (readLength data headersEnd))
      rw [← hsame]
      exact received_readBody (find_append hfind piece) hmax
  | complete data =>
      obtain ⟨hpart, hdone⟩ := hreceived
      exact ⟨hpart.trans (List.prefix_append _ _), hdone⟩
  | tooLarge =>
      obtain ⟨headersEnd, hfind, hlarge⟩ := hreceived
      refine ⟨headersEnd, find_append hfind piece, ?_⟩
      rw [readLength_append hfind piece]
      exact hlarge
  | flood =>
      obtain ⟨part, hpart, hnone, hlong⟩ := hreceived
      exact ⟨part, hpart.trans (List.prefix_append _ _), hnone, hlong⟩

/-- Any number of reads. -/
theorem Received.run {connection : Connection} (hreceived : Received maxBytes text connection)
    (reads : List Bytes) :
    Received maxBytes (text ++ reads.flatten)
      (Runs.run (Connection.receive maxBytes) connection reads) := by
  induction reads generalizing text connection with
  | nil => simpa using hreceived
  | cons piece reads ih =>
      rw [Runs.run_cons, List.flatten_cons, ← List.append_assoc]
      exact ih (hreceived.receive piece)

theorem received_handleConnection (maxBytes : ℕ) (reads : List Bytes) :
    Received maxBytes reads.flatten (handleConnection maxBytes reads) := by
  have hstart : Received maxBytes [] (.headers []) := ⟨rfl, by decide⟩
  exact hstart.run reads

/-! ## Slicings -/

/-- The header block, with the empty line, is at most 64 KiB long. -/
def HeaderFits (stream : Bytes) : Prop :=
  match find (crlf ++ crlf) stream with
  | none => stream.length ≤ 64 * 1024
  | some headersEnd => headersEnd + 4 ≤ 64 * 1024

instance (stream : Bytes) : Decidable (HeaderFits stream) :=
  match hfind : find (crlf ++ crlf) stream with
  | none => decidable_of_iff (stream.length ≤ 64 * 1024) (by rw [HeaderFits, hfind])
  | some headersEnd => decidable_of_iff (headersEnd + 4 ≤ 64 * 1024) (by rw [HeaderFits, hfind])

/-- The request is rejected, and would not be with more bytes behind it. -/
def LacksBody (data : Bytes) : Prop :=
  parseHttpRequest data = none ∧ ∃ more, parseHttpRequest (data ++ more) ≠ none

/-- Every slicing has the same outcome; and what the loops leave to the parser is not
rejected for a missing body, nor is its body another than that of the whole stream. -/
structure SlicingIndependent (maxBytes : ℕ) (stream : Bytes) : Prop where
  outcome : ∀ reads other, Slices reads stream → Slices other stream →
    (handleConnection maxBytes reads).outcome = (handleConnection maxBytes other).outcome
  body : ∀ reads data, Slices reads stream → handleConnection maxBytes reads = .complete data →
    ¬ LacksBody data ∧ ∀ r whole, parseHttpRequest data = some r →
      parseHttpRequest stream = some whole → r.body = whole.body

/-- If the loops come to their end and the request line is well formed, the parser does not
want more than was read. -/
def LengthsAgree (maxBytes : ℕ) (stream : Bytes) : Prop :=
  ∀ headersEnd lineEnd, find (crlf ++ crlf) stream = some headersEnd →
    find crlf stream = some lineEnd →
      maxBytes < readLength stream headersEnd ∨
        stream.length < headersEnd + 4 + readLength stream headersEnd ∨
          parseRequestLine (stream.take lineEnd) = none ∨
            requiredLength stream headersEnd lineEnd ≤ readLength stream headersEnd

/-- There is no flood. -/
theorem not_received_flood (hfits : HeaderFits stream) : ¬ Received maxBytes stream .flood := by
  intro hreceived
  obtain ⟨part, ⟨later, rfl⟩, hnone, hlong⟩ := hreceived
  unfold HeaderFits at hfits
  split at hfits
  · rw [List.length_append] at hfits
    omega
  · rename_i headersEnd hfind
    have hpart : find (crlf ++ crlf) part = some headersEnd := by
      refine (find_append_iff later).mpr ⟨hfind, ?_⟩
      have hfour : (crlf ++ crlf).length = 4 := rfl
      omega
    cases hnone.symm.trans hpart

/-- The first line ends where the headers end, or before. -/
theorem exists_lineEnd {headersEnd : ℕ} (hfind : find (crlf ++ crlf) text = some headersEnd) :
    ∃ lineEnd ≤ headersEnd, find crlf text = some lineEnd :=
  exists_find_le ((List.prefix_append crlf crlf).trans (find_spec hfind))

/-- What the loops leave to the parser is parsed like all of the stream. -/
theorem parse_of_lengthsAgree (hagree : LengthsAgree maxBytes stream) {data : Bytes}
    (hcomplete : Received maxBytes stream (.complete data)) (later : Bytes) :
    parseHttpRequest (data ++ later) = parseHttpRequest data ∧
      parseHttpRequest stream = parseHttpRequest data := by
  obtain ⟨⟨behind, rfl⟩, headersEnd, hfind, hmax, hread⟩ := hcomplete
  obtain ⟨lineEnd, -, hline⟩ := exists_lineEnd hfind
  have hlength := find_length hline
  have htake : (data ++ behind).take lineEnd = data.take lineEnd :=
    List.take_append_of_le_length (by omega)
  have hrequired : requiredLength (data ++ behind) headersEnd lineEnd =
      requiredLength data headersEnd lineEnd := requiredLength_append hfind behind lineEnd
  have hagree := hagree headersEnd lineEnd (find_append hfind behind) (find_append hline behind)
  rw [readLength_append hfind behind, htake, hrequired, List.length_append] at hagree
  have hbody : headersEnd + 4 + requiredLength data headersEnd lineEnd ≤ data.length ∨
      parseRequestLine (data.take lineEnd) = none := by
    rcases hagree with hlarge | hshort | hmalformed | hle
    · omega
    · omega
    · exact Or.inr hmalformed
    · exact Or.inl (by omega)
  exact ⟨parseHttpRequest_append hfind hline hbody later,
    parseHttpRequest_append hfind hline hbody behind⟩

/-- What a stream comes to in whole. -/
def verdict (maxBytes : ℕ) (stream : Bytes) : Outcome :=
  match find (crlf ++ crlf) stream with
  | none => .waits
  | some headersEnd =>
      if maxBytes < readLength stream headersEnd then .payloadTooLarge
      else if stream.length < headersEnd + 4 + readLength stream headersEnd then .waits
      else (Connection.complete stream).outcome

theorem outcome_eq_verdict (hfits : HeaderFits stream) (hagree : LengthsAgree maxBytes stream)
    {connection : Connection} (hreceived : Received maxBytes stream connection) :
    connection.outcome = verdict maxBytes stream := by
  unfold verdict
  cases connection with
  | headers data =>
      obtain ⟨-, hnone⟩ := hreceived
      rw [hnone]
      rfl
  | body data headersEnd contentLength =>
      obtain ⟨-, hfind, rfl, hmax, hshort⟩ := hreceived
      simp only [hfind]
      rw [if_neg (not_lt.mpr hmax), if_pos hshort]
      rfl
  | complete data =>
      obtain ⟨-, hparse⟩ := parse_of_lengthsAgree hagree hreceived []
      obtain ⟨⟨behind, rfl⟩, headersEnd, hfind, hmax, hread⟩ := hreceived
      have hlong : ¬ (data ++ behind).length < headersEnd + 4 + readLength data headersEnd := by
        rw [List.length_append]
        omega
      simp only [find_append hfind behind]
      rw [readLength_append hfind behind, if_neg (not_lt.mpr hmax), if_neg hlong]
      rw [Connection.outcome_complete, Connection.outcome_complete, hparse]
  | tooLarge =>
      obtain ⟨headersEnd, hfind, hlarge⟩ := hreceived
      simp only [hfind]
      rw [if_pos hlarge]
      rfl
  | flood => exact absurd hreceived (not_received_flood hfits)

/-- A text can be read byte by byte. -/
theorem slices_bytes (text : Bytes) : Slices (text.map fun b => [b]) text := by
  refine ⟨?_, fun piece hpiece => ?_⟩
  · induction text with
    | nil => rfl
    | cons b rest ih => rw [List.map_cons, List.flatten_cons, ih, List.singleton_append]
  · obtain ⟨b, -, rfl⟩ := List.mem_map.mp hpiece
    exact ⟨le_rfl, by simp⟩

theorem Slices.append {reads later : List Bytes} {behind : Bytes} (hreads : Slices reads text)
    (hlater : Slices later behind) : Slices (reads ++ later) (text ++ behind) := by
  refine ⟨?_, fun piece hpiece => ?_⟩
  · rw [List.flatten_append, hreads.1, hlater.1]
  · rcases List.mem_append.mp hpiece with hfirst | hsecond
    · exact hreads.2 piece hfirst
    · exact hlater.2 piece hsecond

/-- What has been given to the parser is not read on. -/
theorem run_complete (maxBytes : ℕ) (data : Bytes) (reads : List Bytes) :
    Runs.run (Connection.receive maxBytes) (.complete data) reads = .complete data := by
  induction reads with
  | nil => rfl
  | cons piece reads ih => exact ih

/-- A read can end where the loop that reads the body is content. -/
theorem exists_complete (hfits : HeaderFits stream) {headersEnd : ℕ}
    (hfind : find (crlf ++ crlf) stream = some headersEnd)
    (hmax : readLength stream headersEnd ≤ maxBytes)
    (hlong : headersEnd + 4 + readLength stream headersEnd ≤ stream.length) :
    ∃ reads, Slices reads stream ∧ handleConnection maxBytes reads =
      .complete (stream.take (headersEnd + 4 + readLength stream headersEnd)) := by
  let n := headersEnd + 4 + readLength stream headersEnd
  have hsplit : stream.take n ++ stream.drop n = stream := List.take_append_drop n stream
  have hlength : (stream.take n).length = n := List.length_take_of_le hlong
  have hpart : find (crlf ++ crlf) (stream.take n) = some headersEnd :=
    find_take hfind (Nat.le_add_right _ _)
  have hread : readLength (stream.take n) headersEnd = readLength stream headersEnd := by
    rw [← readLength_append hpart (stream.drop n), hsplit]
  have hpartFits : HeaderFits (stream.take n) := by
    unfold HeaderFits at hfits ⊢
    rw [hfind] at hfits
    rw [hpart]
    exact hfits
  have hreceived := received_handleConnection maxBytes ((stream.take n).map fun b => [b])
  rw [(slices_bytes (stream.take n)).1] at hreceived
  have hdone : handleConnection maxBytes ((stream.take n).map fun b => [b]) =
      .complete (stream.take n) := by
    cases hconnection : handleConnection maxBytes ((stream.take n).map fun b => [b]) with
    | headers data =>
        rw [hconnection] at hreceived
        cases hreceived.2.symm.trans hpart
    | body data found contentLength =>
        rw [hconnection] at hreceived
        obtain ⟨-, hfound, rfl, -, hshort⟩ := hreceived
        cases hpart.symm.trans hfound
        rw [hread, hlength] at hshort
        exact absurd hshort (lt_irrefl _)
    | complete data =>
        rw [hconnection] at hreceived
        obtain ⟨hcut, found, hfound, -, henough⟩ := hreceived
        obtain ⟨behind, hbehind⟩ := hcut
        have hsame : find (crlf ++ crlf) (data ++ behind) = some found := find_append hfound behind
        rw [hbehind] at hsame
        cases hpart.symm.trans hsame
        have hsameRead : readLength data headersEnd = readLength stream headersEnd := by
          rw [← hread, ← hbehind, readLength_append hfound behind]
        rw [hsameRead] at henough
        have hnil : behind = [] := by
          have htotal := congrArg List.length hbehind
          rw [List.length_append, hlength] at htotal
          exact List.length_eq_zero_iff.mp (by omega)
        rw [← hbehind, hnil, List.append_nil]
    | tooLarge =>
        rw [hconnection] at hreceived
        obtain ⟨found, hfound, hlarge⟩ := hreceived
        cases hpart.symm.trans hfound
        rw [hread] at hlarge
        omega
    | flood =>
        rw [hconnection] at hreceived
        exact absurd hreceived (not_received_flood hpartFits)
  refine ⟨(stream.take n).map (fun b => [b]) ++ (stream.drop n).map (fun b => [b]), ?_, ?_⟩
  · have hslices := (slices_bytes (stream.take n)).append (slices_bytes (stream.drop n))
    rw [hsplit] at hslices
    exact hslices
  · rw [handleConnection, Runs.run_append]
    rw [handleConnection] at hdone
    rw [hdone]
    exact run_complete maxBytes _ _

/-- Where the parser wants more than was read, more bytes would make the request acceptable. -/
theorem lacksBody_take {headersEnd lineEnd : ℕ}
    (hfind : find (crlf ++ crlf) stream = some headersEnd)
    (hline : find crlf stream = some lineEnd)
    (hlong : headersEnd + 4 + readLength stream headersEnd ≤ stream.length)
    (hfirst : parseRequestLine (stream.take lineEnd) ≠ none)
    (hmore : readLength stream headersEnd < requiredLength stream headersEnd lineEnd) :
    LacksBody (stream.take (headersEnd + 4 + readLength stream headersEnd)) := by
  let n := headersEnd + 4 + readLength stream headersEnd
  let required := requiredLength stream headersEnd lineEnd
  obtain ⟨first, hparsed⟩ := Option.ne_none_iff_exists'.mp hfirst
  obtain ⟨found, hle, hfound⟩ := exists_lineEnd hfind
  cases hline.symm.trans hfound
  have hlength : (stream.take n).length = n := List.length_take_of_le hlong
  have hpart : find (crlf ++ crlf) (stream.take n) = some headersEnd :=
    find_take hfind (Nat.le_add_right _ _)
  have hpartLine : find crlf (stream.take n) = some lineEnd :=
    find_take hline (by show lineEnd + 2 ≤ n; omega)
  have htake : (stream.take n).take lineEnd = stream.take lineEnd := by
    rw [List.take_take, min_eq_left (by omega)]
  have hrequired : requiredLength (stream.take n) headersEnd lineEnd = required := by
    rw [← requiredLength_append hpart (stream.drop n), List.take_append_drop]
  refine ⟨?_, List.replicate required 0, ?_⟩
  · have hshort : (stream.take n).length - (headersEnd + 4) < required := by
      rw [hlength]
      omega
    rw [parseHttpRequest_eq hpart hpartLine, htake, hparsed, hrequired]
    exact if_pos hshort
  · have hmoreTake : (stream.take n ++ List.replicate required 0).take lineEnd =
        stream.take lineEnd := by
      rw [List.take_append_of_le_length (by omega), htake]
    have hlongEnough : ¬ (stream.take n ++ List.replicate required 0).length - (headersEnd + 4) <
        required := by
      rw [List.length_append, hlength, List.length_replicate]
      omega
    rw [parseHttpRequest_eq (find_append hpart _) (find_append hpartLine _), hmoreTake, hparsed,
      requiredLength_append hpart, hrequired, Option.bind_some]
    dsimp only
    rw [if_neg hlongEnough]
    exact Option.some_ne_none _

/-- A stream is read alike in every slicing, and is never rejected for a body that is still
under way, exactly if the parser does not want more than was read. -/
theorem slicing_iff (maxBytes : ℕ) {stream : Bytes} (hfits : HeaderFits stream) :
    SlicingIndependent maxBytes stream ↔ LengthsAgree maxBytes stream := by
  constructor
  · intro hindependent headersEnd lineEnd hfind hline
    by_contra hdisagree
    push Not at hdisagree
    obtain ⟨hmax, hlong, hfirst, hmore⟩ := hdisagree
    obtain ⟨reads, hreads, hcomplete⟩ := exists_complete hfits hfind hmax hlong
    refine (hindependent.body reads _ hreads hcomplete).1 ?_
    exact lacksBody_take hfind hline hlong hfirst hmore
  · intro hagree
    refine ⟨fun reads other hreads hother => ?_, fun reads data hreads hcomplete => ?_⟩
    · have hfirst := received_handleConnection maxBytes reads
      have hsecond := received_handleConnection maxBytes other
      rw [hreads.1] at hfirst
      rw [hother.1] at hsecond
      exact (outcome_eq_verdict hfits hagree hfirst).trans
        (outcome_eq_verdict hfits hagree hsecond).symm
    · have hreceived := received_handleConnection maxBytes reads
      rw [hreads.1, hcomplete] at hreceived
      refine ⟨fun hlacks => ?_, fun r whole hr hwhole => ?_⟩
      · obtain ⟨hnone, more, hsome⟩ := hlacks
        exact hsome ((parse_of_lengthsAgree hagree hreceived more).1.trans hnone)
      · rw [(parse_of_lengthsAgree hagree hreceived []).2, hr] at hwhole
        cases hwhole
        rfl

/-- A request that announces its body once is read alike in every slicing. -/
theorem slicing_one_length :
    SlicingIndependent 1024 (ascii "POST / HTTP/1.1\r\nContent-Length: 2\r\n\r\nhi") := by
  refine (slicing_iff 1024 (by decide +kernel)).mpr fun headersEnd lineEnd hfind hline => ?_
  have hends : find (crlf ++ crlf) (ascii "POST / HTTP/1.1\r\nContent-Length: 2\r\n\r\nhi") =
      some 34 := by decide +kernel
  have hfirst : find crlf (ascii "POST / HTTP/1.1\r\nContent-Length: 2\r\n\r\nhi") = some 15 := by
    decide +kernel
  cases hends.symm.trans hfind
  cases hfirst.symm.trans hline
  exact Or.inr (Or.inr (Or.inr (by decide +kernel)))

/-- A blank before the colon: the loop does not know the header and the parser does, so that
the request is accepted in one read and rejected in two. -/
theorem blank_before_colon :
    let head := ascii "POST / HTTP/1.1\r\nContent-Length : 5\r\n\r\n"
    let body := ascii "hello"
    HeaderFits (head ++ body) ∧
      Slices [head ++ body] (head ++ body) ∧ Slices [head, body] (head ++ body) ∧
      (handleConnection 1024 [head ++ body]).outcome =
        .request ⟨ascii "POST", ascii "/", [(ascii "Content-Length", ascii "5")], body⟩ ∧
      (handleConnection 1024 [head, body]).outcome = .badRequest ∧
      ¬ SlicingIndependent 1024 (head ++ body) := by
  intro head body
  have hone : Slices [head ++ body] (head ++ body) := by decide +kernel
  have htwo : Slices [head, body] (head ++ body) := by decide +kernel
  have haccepted : (handleConnection 1024 [head ++ body]).outcome =
      .request ⟨ascii "POST", ascii "/", [(ascii "Content-Length", ascii "5")], body⟩ := by
    decide +kernel
  have hrejected : (handleConnection 1024 [head, body]).outcome = .badRequest := by decide +kernel
  refine ⟨by decide +kernel, hone, htwo, haccepted, hrejected, fun hindependent => ?_⟩
  have hsame := hindependent.outcome _ _ hone htwo
  rw [haccepted, hrejected] at hsame
  cases hsame

end Reame.Server
