import Reame.Foundation.HeaderBlock
import Reame.Foundation.TextLines
import Reame.Server.HttpParser
import Reame.Server.WriterProtocol

/-!
# The text of a response

`serialize_http_response` prints a response: a status line, the headers in the order of the
map, the length of the body unless there is a header for it, an empty line, and the body.
`SocketWriter` sends a reply that is not streamed in this form.  For a stream it takes the
line with the length out of the text again, by looking for `Content-Length: 0`, and ends the
body by closing the connection.

A client reads the headers up to the empty line, as much of a body as it is told, and without
a length all that comes (`readResponse`).  What it reads is what the handler has said
(`client_reads`), if the headers can be told apart in the text.  The one thing that is not
obvious is which line the search for the length finds: it is the right one if no other line
ends like it (`find_own_line`).
-/

namespace Reame.Server

open Wire

variable {Num : Type}

/-! ## Printing -/

/-- `status_reason`. -/
def statusReason (status : ℕ) : Bytes :=
  match status with
  | 200 => ascii "OK"
  | 204 => ascii "No Content"
  | 400 => ascii "Bad Request"
  | 401 => ascii "Unauthorized"
  | 404 => ascii "Not Found"
  | 405 => ascii "Method Not Allowed"
  | 413 => ascii "Payload Too Large"
  | 429 => ascii "Too Many Requests"
  | 500 => ascii "Internal Server Error"
  | 503 => ascii "Service Unavailable"
  | _ => ascii "Unknown"

/-- `CaseInsensitiveLess`, as an order for sorting. -/
def notAfter (a b : Bytes × Bytes) : Bool :=
  decide (¬ b.1.map toLower < a.1.map toLower)

/-- The entries in the order of the map. -/
def HeaderMap.inOrder (headers : HeaderMap) : HeaderMap := headers.mergeSort notAfter

/-- What is sent for a piece of data; `dump` is `nlohmann::json::dump`. -/
def Data.bytes (dump : Json Num → Bytes) : Data Num → Bytes
  | .dump body => dump body
  | .event body => ascii "data: " ++ dump body ++ ascii "\n\n"
  | .text bytes => bytes

/-- The status line, without its end. -/
def statusLine (status : ℕ) : Bytes :=
  ascii "HTTP/1.1 " ++ decimal status ++ ascii " " ++ statusReason status

/-- The line of a header, without its end. -/
def headerLine (entry : Bytes × Bytes) : Bytes := entry.1 ++ ascii ": " ++ entry.2

/-- The text of a body. -/
def bodyText (dump : Json Num → Bytes) (body : List (Data Num)) : Bytes :=
  (body.map (Data.bytes dump)).flatten

/-- `serialize_http_response`. -/
def serializeHttpResponse (dump : Json Num → Bytes) (response : HttpResponse Num) : Bytes :=
  let body := bodyText dump response.body
  statusLine response.status ++ crlf ++
    (response.headers.inOrder.flatMap fun entry => headerLine entry ++ crlf) ++
    (if HeaderMap.find response.headers (ascii "Content-Length") = none then
      ascii "Content-Length: " ++ decimal body.length ++ crlf
    else []) ++ crlf ++ body

/-- `wire.find("Content-Length: 0\r\n")`, and `wire.erase(pos, 19)`. -/
def withoutLength (wire : Bytes) : Bytes :=
  match find (ascii "Content-Length: 0\r\n") wire with
  | none => wire
  | some pos => wire.take pos ++ wire.drop (pos + 19)

/-- The bytes that are written to the socket. -/
def Sent.bytes (dump : Json Num → Bytes) : Sent Num → Bytes
  | .response r => serializeHttpResponse dump r
  | .head r => withoutLength (serializeHttpResponse dump r)
  | .chunk d => d.bytes dump

/-- All that a client receives before the connection is closed. -/
def wireText (dump : Json Num → Bytes) (sent : List (Sent Num)) : Bytes :=
  (sent.map (Sent.bytes dump)).flatten

/-! ## The client -/

/-- A response as a client reads it. -/
structure Reading where
  status : ℕ
  headers : HeaderMap
  body : Bytes
deriving DecidableEq, Repr

/-- The status of a status line. -/
def readStatus (line : Bytes) : Option ℕ := do
  let (version, rest) ← TextLines.cut 32 line
  let (code, _) ← TextLines.cut 32 rest
  if version = ascii "HTTP/1.1" then some (digitsValue code) else none

/-- What a client makes of a connection that has been closed. -/
def readResponse (wire : Bytes) : Option Reading := do
  let headersEnd ← find (crlf ++ crlf) wire
  let lineEnd ← find crlf wire
  let status ← readStatus (wire.take lineEnd)
  let headers := parseHeaders [] (headerLines wire headersEnd lineEnd)
  let rest := wire.drop (headersEnd + 4)
  match HeaderMap.find headers (ascii "Content-Length") with
  | none => pure ⟨status, headers, rest⟩
  | some value =>
      if rest.length < strtoull value then none
      else pure ⟨status, headers, rest.take (strtoull value)⟩

/-! ## Headers in a text -/

/-- A header that can be told apart in a text. -/
structure IsHeader (entry : Bytes × Bytes) : Prop where
  name_ne_nil : entry.1 ≠ []
  nameStripped : TextLines.Stripped isBlank entry.1
  nameNoCr : (13 : UInt8) ∉ entry.1
  noColon : (58 : UInt8) ∉ entry.1
  valueStripped : TextLines.Stripped isBlank entry.2
  valueNoCr : (13 : UInt8) ∉ entry.2

instance (entry : Bytes × Bytes) : Decidable (IsHeader entry) :=
  decidable_of_iff (entry.1 ≠ [] ∧ TextLines.Stripped isBlank entry.1 ∧ (13 : UInt8) ∉ entry.1 ∧
    (58 : UInt8) ∉ entry.1 ∧ TextLines.Stripped isBlank entry.2 ∧ (13 : UInt8) ∉ entry.2)
    ⟨fun ⟨h1, h2, h3, h4, h5, h6⟩ => ⟨h1, h2, h3, h4, h5, h6⟩,
      fun ⟨h1, h2, h3, h4, h5, h6⟩ => ⟨h1, h2, h3, h4, h5, h6⟩⟩

theorem headerLine_eq (entry : Bytes × Bytes) :
    headerLine entry = entry.1 ++ 58 :: 32 :: entry.2 := List.append_assoc ..

variable {entry : Bytes × Bytes}

theorem IsHeader.isLine (hentry : IsHeader entry) : IsLine (headerLine entry) := by
  rw [headerLine_eq]
  refine ⟨List.append_ne_nil_of_left_ne_nil hentry.name_ne_nil _, fun hmem => ?_⟩
  rcases List.mem_append.mp hmem with hname | hrest
  · exact hentry.nameNoCr hname
  rcases List.mem_cons.mp hrest with hcolon | hrest
  · exact absurd hcolon (by decide)
  rcases List.mem_cons.mp hrest with hblank | hvalue
  · exact absurd hblank (by decide)
  · exact hentry.valueNoCr hvalue

/-- The parser splits a line where it was put together. -/
theorem IsHeader.splitLine (hentry : IsHeader entry) :
    splitLine (headerLine entry) = some (entry.1, 32 :: entry.2) := by
  rw [headerLine_eq]
  exact TextLines.cut_append hentry.noColon (32 :: entry.2)

theorem IsHeader.trim_name (hentry : IsHeader entry) : trim entry.1 = entry.1 :=
  TextLines.strip_of_stripped hentry.nameStripped

theorem IsHeader.trim_value (hentry : IsHeader entry) : trim (32 :: entry.2) = entry.2 := by
  have hblank : ∀ b ∈ [(32 : UInt8)], isBlank b = true := by
    intro b hb
    rw [List.mem_singleton.mp hb]
    rfl
  have hpad := TextLines.strip_pad hblank (fun b hb => absurd hb List.not_mem_nil) entry.2
  rw [List.append_nil, TextLines.strip_of_stripped hentry.valueStripped] at hpad
  exact hpad

/-- No two headers have the same name. -/
def Distinct (headers : HeaderMap) : Prop := headers.Pairwise fun a b => ¬ SameName a.1 b.1

instance (headers : HeaderMap) : Decidable (Distinct headers) :=
  inferInstanceAs (Decidable (List.Pairwise _ _))

/-- A header with a name of its own. -/
theorem distinct_append {headers : HeaderMap} {name : Bytes} (hdistinct : Distinct headers)
    (hnew : ∀ entry ∈ headers, ¬ SameName entry.1 name) (value : Bytes) :
    Distinct (headers ++ [(name, value)]) := by
  refine List.pairwise_append.mpr ⟨hdistinct, List.pairwise_singleton _ _, ?_⟩
  intro entry hentry other hother
  rw [List.mem_singleton.mp hother]
  exact hnew entry hentry

/-- The parser gets the headers back. -/
theorem parseHeaders_headerLines {headers before : HeaderMap}
    (hheaders : ∀ entry ∈ headers, IsHeader entry) (hdistinct : Distinct (before ++ headers)) :
    parseHeaders before (headers.map headerLine) = before ++ headers := by
  induction headers generalizing before with
  | nil => exact (List.append_nil before).symm
  | cons entry headers ih =>
      have hentry := hheaders entry (List.mem_cons_self ..)
      have hassign : before.assign entry.1 entry.2 = before ++ [entry] :=
        assign_of_new entry.2 fun other hother =>
          (List.pairwise_append.mp hdistinct).2.2 other hother entry (List.mem_cons_self ..)
      rw [List.map_cons, parseHeaders, hentry.splitLine]
      dsimp only
      rw [hentry.trim_name, hentry.trim_value, hassign, ih]
      · rw [List.append_assoc]
        rfl
      · exact fun later hlater => hheaders later (List.mem_cons_of_mem _ hlater)
      · rw [List.append_assoc]
        exact hdistinct

/-- The lines of a block. -/
theorem linesFrom_ended {ls : List Bytes} (hls : ∀ line ∈ ls, IsLine line) (before rest : Bytes)
    {fuel : ℕ} (hfuel : ls.length ≤ fuel) :
    linesFrom (before ++ (ended ls ++ rest)) (before.length + (ended ls).length - 2) fuel
      before.length = ls := by
  induction ls generalizing before fuel with
  | nil =>
      cases fuel with
      | zero => rfl
      | succ fuel =>
          have hpos : ¬ before.length < before.length + (ended []).length - 2 := by
            rw [ended_nil, List.length_nil]
            omega
          exact if_neg hpos
  | cons line ls ih =>
      obtain ⟨fuel, rfl⟩ : ∃ smaller, fuel = smaller + 1 :=
        ⟨fuel - 1, by rw [List.length_cons] at hfuel; omega⟩
      have hline := hls line (List.mem_cons_self ..)
      have hpositive := List.length_pos_iff.mpr hline.ne_nil
      have hcrlf : crlf.length = 2 := rfl
      have hlength : (ended (line :: ls)).length = line.length + 2 + (ended ls).length := by
        rw [ended_cons, List.length_append, List.length_append, hcrlf]
      have hpos : before.length < before.length + (ended (line :: ls)).length - 2 := by omega
      have htext : before ++ (ended (line :: ls) ++ rest) =
          before ++ (line ++ crlf ++ (ended ls ++ rest)) := by
        rw [ended_cons, List.append_assoc (line ++ crlf)]
      have hagain : before ++ (line ++ crlf ++ (ended ls ++ rest)) =
          before ++ line ++ crlf ++ (ended ls ++ rest) := by
        simp only [List.append_assoc]
      have hnext : (before ++ line ++ crlf).length = before.length + line.length + 2 := by
        rw [List.length_append, List.length_append, hcrlf]
      have hstop : before.length + (ended (line :: ls)).length - 2 =
          (before ++ line ++ crlf).length + (ended ls).length - 2 := by omega
      have hfind : findFrom crlf (before ++ (line ++ crlf ++ (ended ls ++ rest))) before.length =
          some (before.length + line.length) := by
        rw [findFrom, List.drop_left, find_line hline.noCr]
        rfl
      rw [linesFrom, if_pos hpos, htext, hfind]
      dsimp only [Option.getD_some]
      rw [List.drop_left, Nat.add_sub_cancel_left, List.append_assoc line, List.take_left,
        ← List.append_assoc line, hagain, hstop, ← hnext,
        ih (fun later hlater => hls later (List.mem_cons_of_mem _ hlater))]
      rw [List.length_cons] at hfuel
      omega

theorem length_le_ended (ls : List Bytes) : ls.length ≤ (ended ls).length := by
  induction ls with
  | nil => exact le_rfl
  | cons line ls ih =>
      have hcrlf : crlf.length = 2 := rfl
      rw [ended_cons, List.length_append, List.length_append, List.length_cons]
      omega

/-! ## Reading a response -/

theorem isBlank_of_mem_decimal {n : ℕ} {b : UInt8} (hb : b ∈ decimal n) : isBlank b = false := by
  have hspace := isSpace_of_isDigit (isDigit_of_mem_decimal hb)
  simp only [isSpace, Bool.or_eq_false_iff, beq_eq_false_iff_ne] at hspace
  simp only [isBlank, Bool.or_eq_false_iff, beq_eq_false_iff_ne]
  refine ⟨hspace.1, fun htab => ?_⟩
  rw [htab] at hspace
  exact absurd hspace.2 (by decide)

theorem readStatus_statusLine (status : ℕ) : readStatus (statusLine status) = some status := by
  have hline : statusLine status =
      ascii "HTTP/1.1" ++ 32 :: (decimal status ++ 32 :: statusReason status) := by
    rw [statusLine, List.append_assoc, List.append_assoc]
    rfl
  have hdigits : (32 : UInt8) ∉ decimal status := fun hmem =>
    absurd (isDigit_of_mem_decimal hmem) (by decide)
  have hversion : (32 : UInt8) ∉ ascii "HTTP/1.1" := by decide
  simp only [readStatus, hline, TextLines.cut_append hversion, TextLines.cut_append hdigits,
    Option.bind_eq_bind, Option.bind_some, if_true, digitsValue_decimal]

theorem isLine_statusLine (status : ℕ) : IsLine (statusLine status) := by
  have hreason : (13 : UInt8) ∉ statusReason status := by
    unfold statusReason
    split <;> decide
  refine ⟨fun hnil => ?_, fun hmem => ?_⟩
  · have hlength := congrArg List.length hnil
    rw [statusLine, List.length_append, List.length_append, List.length_append,
      List.length_nil] at hlength
    have hversion : (ascii "HTTP/1.1 ").length = 9 := by decide
    omega
  · rw [statusLine, List.mem_append, List.mem_append, List.mem_append] at hmem
    rcases hmem with ((hversion | hcode) | hblank) | hend
    · exact absurd hversion (by decide)
    · exact cr_notMem_decimal status hcode
    · exact absurd hblank (by decide)
    · exact hreason hend

/-- What a client reads of a status line, headers and what comes behind them. -/
theorem readResponse_block (status : ℕ) {headers : HeaderMap}
    (hheaders : ∀ entry ∈ headers, IsHeader entry) (hdistinct : Distinct headers) (rest : Bytes) :
    readResponse (ended (statusLine status :: headers.map headerLine) ++ crlf ++ rest) =
      match HeaderMap.find headers (ascii "Content-Length") with
      | none => some ⟨status, headers, rest⟩
      | some value =>
          if rest.length < strtoull value then none
          else some ⟨status, headers, rest.take (strtoull value)⟩ := by
  let ls := headers.map headerLine
  have hls : ∀ line ∈ ls, IsLine line := by
    intro line hline
    obtain ⟨entry, hentry, rfl⟩ := List.mem_map.mp hline
    exact (hheaders entry hentry).isLine
  have hstatus := isLine_statusLine status
  have hcrlf : crlf.length = 2 := rfl
  have hlength : (ended (statusLine status :: ls)).length =
      (statusLine status).length + 2 + (ended ls).length := by
    rw [ended_cons, List.length_append, List.length_append, hcrlf]
  have hends := find_blank hstatus hls rest
  have hfirst : find crlf (ended (statusLine status :: ls) ++ crlf ++ rest) =
      some (statusLine status).length := by
    rw [ended_cons, List.append_assoc, List.append_assoc]
    exact find_line hstatus.noCr _
  have htake : (ended (statusLine status :: ls) ++ crlf ++ rest).take (statusLine status).length =
      statusLine status := by
    rw [ended_cons, List.append_assoc, List.append_assoc, List.append_assoc]
    exact List.take_left
  have hlines : headerLines (ended (statusLine status :: ls) ++ crlf ++ rest)
      ((ended (statusLine status :: ls)).length - 2) (statusLine status).length = ls := by
    have htext : ended (statusLine status :: ls) ++ crlf ++ rest =
        statusLine status ++ crlf ++ (ended ls ++ (crlf ++ rest)) := by
      rw [ended_cons]
      simp only [List.append_assoc]
    have hbefore : (statusLine status ++ crlf).length = (statusLine status).length + 2 := by
      rw [List.length_append, hcrlf]
    have hfuel : ls.length ≤ (ended (statusLine status :: ls)).length - 2 := by
      have hle := length_le_ended ls
      omega
    have hread := linesFrom_ended hls (statusLine status ++ crlf) (crlf ++ rest) hfuel
    rw [hbefore, ← hlength] at hread
    rw [headerLines, htext]
    exact hread
  have hdrop : (ended (statusLine status :: ls) ++ crlf ++ rest).drop
      ((ended (statusLine status :: ls)).length - 2 + 4) = rest := by
    have hpos : (ended (statusLine status :: ls)).length - 2 + 4 =
        (ended (statusLine status :: ls) ++ crlf).length := by
      rw [List.length_append, hcrlf]
      omega
    rw [hpos]
    exact List.drop_left
  have hparse : parseHeaders [] ls = headers := parseHeaders_headerLines hheaders hdistinct
  unfold readResponse
  simp only [ls] at *
  simp only [hends, hfirst, htake, hlines, hdrop, hparse, readStatus_statusLine,
    Option.bind_eq_bind, Option.bind_some]
  rfl

/-! ## What is written -/

/-- Headers of a handler: they can be told apart in a text, and are none of those that are
added to them; no line of them ends like the length of an empty body. -/
structure Plain (headers : HeaderMap) : Prop where
  entries : ∀ entry ∈ headers, IsHeader entry
  distinct : Distinct headers
  noConnection : ∀ entry ∈ headers, ¬ SameName entry.1 (ascii "Connection")
  noLength : ∀ entry ∈ headers, ¬ SameName entry.1 (ascii "Content-Length")
  noEmptyLength : ∀ entry ∈ headers, ¬ ascii "Content-Length: 0" <:+ headerLine entry

instance (headers : HeaderMap) : Decidable (Plain headers) :=
  decidable_of_iff ((∀ entry ∈ headers, IsHeader entry) ∧ Distinct headers ∧
    (∀ entry ∈ headers, ¬ SameName entry.1 (ascii "Connection")) ∧
    (∀ entry ∈ headers, ¬ SameName entry.1 (ascii "Content-Length")) ∧
    ∀ entry ∈ headers, ¬ ascii "Content-Length: 0" <:+ headerLine entry)
    ⟨fun ⟨h1, h2, h3, h4, h5⟩ => ⟨h1, h2, h3, h4, h5⟩,
      fun ⟨h1, h2, h3, h4, h5⟩ => ⟨h1, h2, h3, h4, h5⟩⟩

theorem inOrder_perm (headers : HeaderMap) : headers.inOrder.Perm headers :=
  List.mergeSort_perm headers notAfter

theorem SameName.symm {a b : Bytes} (hsame : SameName a b) : SameName b a := Eq.symm hsame

theorem distinct_inOrder {headers : HeaderMap} (hdistinct : Distinct headers) :
    Distinct headers.inOrder := by
  refine (List.Perm.pairwise_iff ?_ (inOrder_perm headers)).mpr hdistinct
  exact fun hne hsame => hne hsame.symm

theorem find_eq_none {headers : HeaderMap} {name : Bytes}
    (hnone : ∀ entry ∈ headers, ¬ SameName entry.1 name) : HeaderMap.find headers name = none := by
  rw [HeaderMap.find, Option.map_eq_none_iff, List.find?_eq_none]
  exact fun entry hentry hsame => hnone entry hentry (of_decide_eq_true hsame)

/-- A response without a header for its length, as lines. -/
theorem serialize_eq (dump : Json Num → Bytes) (response : HttpResponse Num)
    (hnone : ∀ entry ∈ response.headers, ¬ SameName entry.1 (ascii "Content-Length")) :
    serializeHttpResponse dump response =
      ended (statusLine response.status :: response.headers.inOrder.map headerLine) ++
        (ascii "Content-Length: " ++ decimal (bodyText dump response.body).length ++ crlf ++
          (crlf ++ bodyText dump response.body)) := by
  have hlines : (response.headers.inOrder.flatMap fun entry => headerLine entry ++ crlf) =
      ended (response.headers.inOrder.map headerLine) := by
    rw [ended, List.flatMap_map]
  rw [serializeHttpResponse, find_eq_none hnone, if_pos rfl, hlines, ended_cons]
  simp only [List.append_assoc]

/-- The status line does not end like the length of an empty body. -/
theorem status_noEmptyLength (status : ℕ) :
    ¬ ascii "Content-Length: 0" <:+ statusLine status := by
  have hreason : statusReason status ≠ [] ∧ (statusReason status).getLast? ≠ some 48 := by
    unfold statusReason
    split <;> decide
  rintro ⟨front, hfront⟩
  have hlast := congrArg List.getLast? hfront
  have hzero : (ascii "Content-Length: 0").getLast? = some 48 := by decide
  rw [statusLine, List.getLast?_append, List.getLast?_append, hzero] at hlast
  cases hend : (statusReason status).getLast? with
  | none => exact hreason.1 (List.getLast?_eq_none_iff.mp hend)
  | some last =>
      rw [hend] at hlast
      exact hreason.2 (hend.trans hlast.symm)

/-- The head of a stream, without the length that has been printed. -/
theorem withoutLength_eq (dump : Json Num → Bytes) (status : ℕ) {headers : HeaderMap}
    (hheaders : ∀ entry ∈ headers, IsHeader entry)
    (hnone : ∀ entry ∈ headers, ¬ SameName entry.1 (ascii "Content-Length"))
    (hends : ∀ entry ∈ headers, ¬ ascii "Content-Length: 0" <:+ headerLine entry) :
    withoutLength (serializeHttpResponse dump ⟨status, headers, []⟩) =
      ended (statusLine status :: headers.inOrder.map headerLine) ++ crlf := by
  let ls := statusLine status :: headers.inOrder.map headerLine
  have hown : IsLine (ascii "Content-Length: 0") := ⟨by decide, by decide⟩
  have hls : ∀ line ∈ ls, (13 : UInt8) ∉ line ∧ ¬ ascii "Content-Length: 0" <:+ line := by
    intro line hline
    rcases List.mem_cons.mp hline with rfl | hline
    · exact ⟨(isLine_statusLine status).noCr, status_noEmptyLength status⟩
    · obtain ⟨entry, hentry, rfl⟩ := List.mem_map.mp hline
      have hmem := (inOrder_perm headers).mem_iff.mp hentry
      exact ⟨(hheaders entry hmem).isLine.noCr, hends entry hmem⟩
  have hpattern : ascii "Content-Length: 0\r\n" = ascii "Content-Length: 0" ++ crlf := by decide
  have hzero : ascii "Content-Length: " ++ decimal (bodyText dump ([] : List (Data Num))).length =
      ascii "Content-Length: 0" := by
    show ascii "Content-Length: " ++ decimal 0 = _
    decide
  have htext : serializeHttpResponse dump ⟨status, headers, []⟩ =
      ended ls ++ (ascii "Content-Length: 0" ++ crlf ++ crlf) := by
    rw [serialize_eq dump _ hnone, hzero]
    simp only [ls, bodyText, List.map_nil, List.flatten_nil, List.append_nil]
  have hfind := find_own_line hown (by decide) hls crlf
  have hlength : (ascii "Content-Length: 0" ++ crlf).length = 19 := by decide
  rw [withoutLength, htext, hpattern, hfind]
  dsimp only
  rw [List.take_left, List.drop_append, List.drop_of_length_le (Nat.le_add_right _ _),
    Nat.add_sub_cancel_left, List.nil_append, ← hlength, List.drop_left]

theorem wireText_chunks (dump : Json Num → Bytes) (sent : List (Data Num)) :
    wireText dump (sent.map Sent.chunk) = bodyText dump sent := by
  rw [wireText, List.map_map]
  rfl

theorem isHeader_connection : IsHeader (ascii "Connection", ascii "close") := by decide

theorem isHeader_contentLength (n : ℕ) : IsHeader (ascii "Content-Length", decimal n) where
  name_ne_nil := show ascii "Content-Length" ≠ [] by decide
  nameStripped := show TextLines.Stripped isBlank (ascii "Content-Length") by decide
  nameNoCr := show (13 : UInt8) ∉ ascii "Content-Length" by decide
  noColon := show (58 : UInt8) ∉ ascii "Content-Length" by decide
  valueStripped :=
    ⟨fun _ hb => isBlank_of_mem_decimal (List.mem_of_mem_head? hb),
      fun _ hb => isBlank_of_mem_decimal (List.mem_of_mem_getLast? hb)⟩
  valueNoCr := cr_notMem_decimal n

/-- A stream: the body ends with the connection. -/
theorem reads_stream (dump : Json Num → Bytes) (status : ℕ) {headers : HeaderMap}
    (hheaders : Plain headers) (sent : List (Data Num)) :
    readResponse (wireText dump (.head
      ⟨status, headers.assign (ascii "Connection") (ascii "close"), []⟩ :: sent.map .chunk)) =
        some ⟨status, (headers.assign (ascii "Connection") (ascii "close")).inOrder,
          bodyText dump sent⟩ := by
  rw [assign_of_new (ascii "close") hheaders.noConnection]
  let all : HeaderMap := headers ++ [(ascii "Connection", ascii "close")]
  have hall : ∀ entry ∈ all, IsHeader entry := by
    intro entry hentry
    rcases List.mem_append.mp hentry with hmem | hmem
    · exact hheaders.entries entry hmem
    · rw [List.mem_singleton.mp hmem]
      exact isHeader_connection
  have hdistinct : Distinct all := distinct_append hheaders.distinct hheaders.noConnection _
  have hnone : ∀ entry ∈ all, ¬ SameName entry.1 (ascii "Content-Length") := by
    intro entry hentry
    rcases List.mem_append.mp hentry with hmem | hmem
    · exact hheaders.noLength entry hmem
    · rw [List.mem_singleton.mp hmem]
      decide
  have hends : ∀ entry ∈ all, ¬ ascii "Content-Length: 0" <:+ headerLine entry := by
    intro entry hentry
    rcases List.mem_append.mp hentry with hmem | hmem
    · exact hheaders.noEmptyLength entry hmem
    · rw [List.mem_singleton.mp hmem]
      decide
  have hwire : wireText dump (.head ⟨status, all, []⟩ :: sent.map Sent.chunk) =
      ended (statusLine status :: all.inOrder.map headerLine) ++ crlf ++ bodyText dump sent := by
    calc wireText dump (.head ⟨status, all, []⟩ :: sent.map Sent.chunk)
        = withoutLength (serializeHttpResponse dump ⟨status, all, []⟩) ++
            wireText dump (sent.map Sent.chunk) := rfl
      _ = ended (statusLine status :: all.inOrder.map headerLine) ++ crlf ++
            bodyText dump sent := by
          rw [withoutLength_eq dump status hall hnone hends, wireText_chunks]
  have hordered : ∀ entry ∈ all.inOrder, IsHeader entry := fun entry hentry =>
    hall entry ((inOrder_perm all).mem_iff.mp hentry)
  have hfree : ∀ entry ∈ all.inOrder, ¬ SameName entry.1 (ascii "Content-Length") :=
    fun entry hentry => hnone entry ((inOrder_perm all).mem_iff.mp hentry)
  rw [hwire, readResponse_block status hordered (distinct_inOrder hdistinct), find_eq_none hfree]

/-- A whole reply: the body is as long as its header says. -/
theorem reads_whole (dump : Json Num → Bytes) (status : ℕ) {headers : HeaderMap}
    (hheaders : Plain headers) {sent : List (Data Num)}
    (hlength : (bodyText dump sent).length < 2 ^ 64) :
    readResponse (wireText dump [.response ⟨status, headers, sent⟩]) =
      some ⟨status, headers.inOrder ++
        [(ascii "Content-Length", decimal (bodyText dump sent).length)], bodyText dump sent⟩ := by
  let own : Bytes × Bytes := (ascii "Content-Length", decimal (bodyText dump sent).length)
  have hordered : ∀ entry ∈ headers.inOrder ++ [own], IsHeader entry := by
    intro entry hentry
    rcases List.mem_append.mp hentry with hmem | hmem
    · exact hheaders.entries entry ((inOrder_perm headers).mem_iff.mp hmem)
    · rw [List.mem_singleton.mp hmem]
      exact isHeader_contentLength _
  have hfree : ∀ entry ∈ headers.inOrder, ¬ SameName entry.1 (ascii "Content-Length") :=
    fun entry hentry => hheaders.noLength entry ((inOrder_perm headers).mem_iff.mp hentry)
  have hdistinct : Distinct (headers.inOrder ++ [own]) :=
    distinct_append (distinct_inOrder hheaders.distinct) hfree _
  have hfind : HeaderMap.find (headers.inOrder ++ [own]) (ascii "Content-Length") =
      some (decimal (bodyText dump sent).length) := by
    have hearlier : headers.inOrder.find? (fun entry =>
        decide (SameName entry.1 (ascii "Content-Length"))) = none := by
      rw [List.find?_eq_none]
      exact fun entry hentry hsame => hfree entry hentry (of_decide_eq_true hsame)
    have hsame : SameName own.1 (ascii "Content-Length") := rfl
    rw [HeaderMap.find, List.find?_append, hearlier, Option.none_or, List.find?_singleton,
      if_pos (decide_eq_true hsame)]
    rfl
  have hwire : wireText dump [.response ⟨status, headers, sent⟩] =
      ended (statusLine status :: (headers.inOrder ++ [own]).map headerLine) ++ crlf ++
        bodyText dump sent := by
    calc wireText dump [.response ⟨status, headers, sent⟩]
        = serializeHttpResponse dump ⟨status, headers, sent⟩ := List.append_nil _
      _ = ended (statusLine status :: headers.inOrder.map headerLine) ++
            (ascii "Content-Length: " ++ decimal (bodyText dump sent).length ++ crlf ++
              (crlf ++ bodyText dump sent)) := serialize_eq dump _ hheaders.noLength
      _ = ended (statusLine status :: (headers.inOrder ++ [own]).map headerLine) ++ crlf ++
            bodyText dump sent := by
          have hline : headerLine own =
              ascii "Content-Length: " ++ decimal (bodyText dump sent).length := rfl
          have hended : ended [headerLine own] = headerLine own ++ crlf := by
            rw [ended_cons, ended_nil, List.append_nil]
          rw [List.map_append, ← List.cons_append, ended_append, List.map_singleton, hended,
            hline]
          simp only [List.append_assoc]
  rw [hwire, readResponse_block status hordered hdistinct, hfind]
  dsimp only
  rw [strtoull_decimal hlength, if_neg (lt_irrefl _), List.take_length]

/-- The response that a client reads when the writer has been called as it is meant to be. -/
def clientView (dump : Json Num → Bytes) (status : ℕ) (headers : HeaderMap)
    (sent : List (Data Num)) : Reading :=
  let body := bodyText dump sent
  if (⟨status, headers, []⟩ : HttpResponse Num).header (ascii "Content-Type") =
      ascii "text/event-stream" then
    ⟨status, (headers.assign (ascii "Connection") (ascii "close")).inOrder, body⟩
  else ⟨status, headers.inOrder ++ [(ascii "Content-Length", decimal body.length)], body⟩

/-- A client reads the status, the headers and the whole body that the handler has given to
the writer: behind the length of the body, which a client can count, or up to the end of the
connection. -/
theorem client_reads (dump : Json Num → Bytes) (status : ℕ) {headers : HeaderMap}
    (hheaders : Plain headers) {sent : List (Data Num)}
    (hlength : IsStream headers ∨ (bodyText dump sent).length < 2 ^ 64) :
    readResponse (wireText dump (SocketWriter.written
      (.begin status headers :: (sent.map .chunk ++ [.close])))) =
        some (clientView dump status headers sent) := by
  rw [SocketWriter.written_of_proper, clientView]
  split_ifs with hstream
  · exact reads_stream dump status hheaders sent
  · exact reads_whole dump status hheaders (hlength.resolve_left hstream)

end Reame.Server
