import Reame.Foundation.TextLines
import Reame.Server.ApiHandler

/-!
# The request parser

`parse_http_request` takes the bytes that have been read so far: a request line, header lines
up to an empty line, and as much of what follows as `Content-Length` says.  It rejects a
malformed request line, and a body that is not all there yet.

The length that the body is checked against is that of the last header line which is called
`Content-Length` when the blanks around its name are left out (`requiredLength`).  With so much
of a body there, nothing that comes later changes what is made of a request
(`parseHttpRequest_append`).
-/

namespace Reame.Server

open Wire

/-! ## Headers -/

/-- A blank of `trim`. -/
def isBlank (b : UInt8) : Bool := b == 32 || b == 9

/-- `trim`. -/
def trim (text : Bytes) : Bytes := TextLines.strip isBlank text

/-- Two names for the same header (`CaseInsensitiveLess` has neither first). -/
def SameName (a b : Bytes) : Prop := a.map toLower = b.map toLower

instance (a b : Bytes) : Decidable (SameName a b) :=
  inferInstanceAs (Decidable (_ = _))

/-- `HeaderMap::find`. -/
def HeaderMap.find (headers : HeaderMap) (name : Bytes) : Option Bytes :=
  (headers.find? fun entry => SameName entry.1 name).map Prod.snd

/-- `headers[name] = value`; a name that is there keeps its spelling. -/
def HeaderMap.assign (headers : HeaderMap) (name value : Bytes) : HeaderMap :=
  if ∃ entry ∈ headers, SameName entry.1 name then
    headers.map fun entry => if SameName entry.1 name then (entry.1, value) else entry
  else headers ++ [(name, value)]

/-- The name and the value of a header line; a line without a colon is junk. -/
def splitLine (line : Bytes) : Option (Bytes × Bytes) := TextLines.cut 58 line

/-- The lines from `pos` to `stop`: each ends in CR LF or with the text.  Every turn gets
beyond `pos`, and there is fuel for `stop` turns. -/
def linesFrom (text : Bytes) (stop : ℕ) : ℕ → ℕ → List Bytes
  | 0, _ => []
  | fuel + 1, pos =>
      if pos < stop then
        let eol := (findFrom crlf text pos).getD stop
        (text.drop pos).take (eol - pos) :: linesFrom text stop fuel (eol + 2)
      else []

/-- The header lines of a request whose first line ends at `lineEnd`. -/
def headerLines (data : Bytes) (headersEnd lineEnd : ℕ) : List Bytes :=
  linesFrom data headersEnd headersEnd (lineEnd + 2)

/-- The headers of the lines, put into a map. -/
def parseHeaders : HeaderMap → List Bytes → HeaderMap
  | headers, [] => headers
  | headers, line :: lines =>
      match splitLine line with
      | none => parseHeaders headers lines
      | some (name, value) => parseHeaders (headers.assign (trim name) (trim value)) lines

/-! ## Requests -/

/-- The method and the path of a request line: METHOD SP TARGET SP VERSION. -/
def parseRequestLine (line : Bytes) : Option (Bytes × Bytes) := do
  let sp1 ← line.idxOf? 32
  let sp2 ← (line.drop (sp1 + 1)).idxOf? 32
  let method := line.take sp1
  let target := (line.drop (sp1 + 1)).take sp2
  if method = [] ∨ target = [] ∨ target.head? ≠ some 47 then none
  else some (method, target.takeWhile (· ≠ 63))

/-- `parse_http_request` up to the body: where the headers end, and the request without it. -/
def parseHead (data : Bytes) : Option (ℕ × HttpRequest) := do
  let headersEnd ← find (crlf ++ crlf) data
  let lineEnd ← find crlf data
  let (method, target) ← parseRequestLine (data.take lineEnd)
  pure (headersEnd, ⟨method, target, parseHeaders [] (headerLines data headersEnd lineEnd), []⟩)

/-- `parse_http_request`. -/
def parseHttpRequest (data : Bytes) : Option HttpRequest := do
  let (headersEnd, request) ← parseHead data
  match HeaderMap.find request.headers (ascii "Content-Length") with
  | none => pure request
  | some value =>
      let length := strtoull value
      let bodyStart := headersEnd + 4
      if data.length - bodyStart < length then none
      else pure { request with body := (data.drop bodyStart).take length }

/-! ## The lines -/

theorem findFrom_ge {pattern text : Bytes} {pos eol : ℕ}
    (hfind : findFrom pattern text pos = some eol) : pos ≤ eol := by
  obtain ⟨i, -, rfl⟩ := Option.map_eq_some_iff.mp hfind
  exact Nat.le_add_right pos i

/-- More fuel than there are bytes makes no difference. -/
theorem linesFrom_fuel (text : Bytes) (stop : ℕ) {fuel pos : ℕ} (hfuel : stop ≤ pos + fuel)
    (more : ℕ) : linesFrom text stop (fuel + more) pos = linesFrom text stop fuel pos := by
  induction fuel generalizing pos with
  | zero =>
      cases more with
      | zero => rfl
      | succ more =>
          have hpos : ¬ pos < stop := by omega
          rw [Nat.zero_add, linesFrom, linesFrom, if_neg hpos]
  | succ fuel ih =>
      rw [Nat.add_right_comm, linesFrom, linesFrom]
      by_cases hpos : pos < stop
      · rw [if_pos hpos, if_pos hpos]
        have hnext : stop ≤ (findFrom crlf text pos).getD stop + 2 + fuel := by
          cases hfind : findFrom crlf text pos with
          | none => simp only [Option.getD_none]; omega
          | some eol =>
              have hge := findFrom_ge hfind
              simp only [Option.getD_some]
              omega
        dsimp only
        rw [ih hnext]
      · rw [if_neg hpos, if_neg hpos]

/-- The lines up to a line end do not change with what comes later. -/
theorem linesFrom_append {data : Bytes} {stop : ℕ} (hstop : crlf <+: data.drop stop)
    (later : Bytes) (fuel pos : ℕ) :
    linesFrom (data ++ later) stop fuel pos = linesFrom data stop fuel pos := by
  induction fuel generalizing pos with
  | zero => rfl
  | succ fuel ih =>
      rw [linesFrom, linesFrom]
      by_cases hpos : pos < stop
      · have hthere : crlf <+: (data.drop pos).drop (stop - pos) := by
          rw [List.drop_drop, Nat.add_sub_cancel' hpos.le]
          exact hstop
        obtain ⟨i, hle, hi⟩ := exists_find_le hthere
        have hlength := find_length hi
        rw [List.length_drop] at hlength
        have hcrlf : crlf.length = 2 := rfl
        have hposLe : pos ≤ data.length := by omega
        have hdrop : (data ++ later).drop pos = data.drop pos ++ later :=
          List.drop_append_of_le_length hposLe
        have hsame : findFrom crlf (data ++ later) pos = findFrom crlf data pos := by
          rw [findFrom, findFrom, hdrop, find_append hi later, hi]
        have hfind : findFrom crlf data pos = some (pos + i) := by
          rw [findFrom, hi]
          rfl
        rw [if_pos hpos, if_pos hpos, hsame, hfind]
        dsimp only [Option.getD_some]
        rw [ih, hdrop, List.take_append_of_le_length (by rw [List.length_drop]; omega)]
      · rw [if_neg hpos, if_neg hpos]

/-! ## The length of the body -/

/-- The lengths that lines announce, when names and values are read with `read`. -/
def lengths (read : Bytes → Bytes) (lines : List Bytes) : List ℕ :=
  lines.filterMap fun line => (splitLine line).bind fun entry =>
    if SameName (read entry.1) (ascii "Content-Length") then some (strtoull (read entry.2)) else none

/-- The length that `parse_http_request` wants: the last one, of names without the blanks
around them. -/
def requiredLength (data : Bytes) (headersEnd lineEnd : ℕ) : ℕ :=
  (lengths trim (headerLines data headersEnd lineEnd)).getLast?.getD 0

/-- What is found has the name that was looked for. -/
theorem of_found {headers : HeaderMap} {key : Bytes} {first : Bytes × Bytes}
    (hfirst : headers.find? (fun entry => SameName entry.1 key) = some first) :
    SameName first.1 key := by
  have hdecide := List.find?_some hfirst
  exact of_decide_eq_true hdecide

/-- A name that is not there is put behind the others. -/
theorem assign_of_new {headers : HeaderMap} {name : Bytes} (value : Bytes)
    (hnew : ∀ entry ∈ headers, ¬ SameName entry.1 name) :
    headers.assign name value = headers ++ [(name, value)] := by
  refine if_neg fun hthere => ?_
  obtain ⟨entry, hentry, hsame⟩ := hthere
  exact hnew entry hentry hsame

theorem find_assign (headers : HeaderMap) (name value key : Bytes) :
    HeaderMap.find (headers.assign name value) key =
      if SameName name key then some value else HeaderMap.find headers key := by
  unfold HeaderMap.assign HeaderMap.find
  by_cases hthere : ∃ entry ∈ headers, SameName entry.1 name
  · -- The entry keeps its place and its name.
    let put : Bytes × Bytes → Bytes × Bytes := fun entry =>
      if SameName entry.1 name then (entry.1, value) else entry
    have hname : ∀ entry, (put entry).1 = entry.1 := by
      intro entry
      show (if SameName entry.1 name then (entry.1, value) else entry).1 = entry.1
      split_ifs <;> rfl
    have hfound : (headers.map put).find? (fun entry => SameName entry.1 key) =
        (headers.find? fun entry => SameName entry.1 key).map put := by
      rw [List.find?_map]
      simp only [Function.comp_def, hname]
    rw [if_pos hthere, hfound, Option.map_map]
    split_ifs with hkey
    · obtain ⟨entry, hentry, hsame⟩ := hthere
      have hsome : (headers.find? fun entry => SameName entry.1 key).isSome := by
        rw [List.find?_isSome]
        exact ⟨entry, hentry, decide_eq_true (hsame.trans hkey)⟩
      obtain ⟨first, hfirst⟩ := Option.isSome_iff_exists.mp hsome
      have hfirstKey : SameName first.1 key := of_found hfirst
      have hfirstName : SameName first.1 name := hfirstKey.trans hkey.symm
      rw [hfirst]
      show some (put first).2 = some value
      rw [show put first = (first.1, value) from if_pos hfirstName]
    · cases hfirst : headers.find? fun entry => SameName entry.1 key with
      | none => rfl
      | some first =>
          have hfirstKey : SameName first.1 key := of_found hfirst
          have hfirstName : ¬ SameName first.1 name := fun hsame =>
            hkey (hsame.symm.trans hfirstKey)
          show some (put first).2 = some first.2
          rw [show put first = first from if_neg hfirstName]
  · rw [if_neg hthere, List.find?_append]
    split_ifs with hkey
    · have hnone : (headers.find? fun entry => SameName entry.1 key) = none := by
        rw [List.find?_eq_none]
        intro entry hentry hsame
        exact hthere ⟨entry, hentry, (of_decide_eq_true hsame).trans hkey.symm⟩
      rw [hnone, List.find?_singleton, if_pos (decide_eq_true hkey)]
      rfl
    · rw [List.find?_singleton, if_neg (by simpa using hkey), Option.or_none]

/-- The last line wins. -/
theorem find_parseHeaders (headers : HeaderMap) (lines : List Bytes) :
    (HeaderMap.find (parseHeaders headers lines) (ascii "Content-Length")).map strtoull =
      (lengths trim lines).getLast?.or
        ((HeaderMap.find headers (ascii "Content-Length")).map strtoull) := by
  induction lines generalizing headers with
  | nil => rfl
  | cons line lines ih =>
      cases hsplit : splitLine line with
      | none =>
          have hlengths : lengths trim (line :: lines) = lengths trim lines := by
            rw [lengths, List.filterMap_cons, hsplit]
            rfl
          rw [parseHeaders, hsplit, hlengths]
          exact ih headers
      | some entry =>
          rw [parseHeaders, hsplit]
          dsimp only
          rw [ih, find_assign]
          by_cases hname : SameName (trim entry.1) (ascii "Content-Length")
          · have hlengths : lengths trim (line :: lines) =
                strtoull (trim entry.2) :: lengths trim lines := by
              rw [lengths, List.filterMap_cons, hsplit, Option.bind_some, if_pos hname]
              rfl
            rw [hlengths, if_pos hname, List.getLast?_cons]
            cases (lengths trim lines).getLast? <;> rfl
          · have hlengths : lengths trim (line :: lines) = lengths trim lines := by
              rw [lengths, List.filterMap_cons, hsplit, Option.bind_some, if_neg hname]
              rfl
            rw [hlengths, if_neg hname]

/-- The request is accepted if its first line is, and as much of the body is there as the
header lines require. -/
theorem parseHttpRequest_eq {data : Bytes} {headersEnd lineEnd : ℕ}
    (hfind : find (crlf ++ crlf) data = some headersEnd) (hline : find crlf data = some lineEnd) :
    parseHttpRequest data =
      (parseRequestLine (data.take lineEnd)).bind fun first =>
        let length := requiredLength data headersEnd lineEnd
        if data.length - (headersEnd + 4) < length then none
        else some ⟨first.1, first.2, parseHeaders [] (headerLines data headersEnd lineEnd),
          (data.drop (headersEnd + 4)).take length⟩ := by
  have hrequired := find_parseHeaders [] (headerLines data headersEnd lineEnd)
  have hempty : (HeaderMap.find [] (ascii "Content-Length")).map strtoull = none := rfl
  rw [hempty, Option.or_none] at hrequired
  unfold parseHttpRequest parseHead requiredLength
  rw [← hrequired]
  simp only [hfind, hline, Option.bind_eq_bind, Option.bind_some]
  cases parseRequestLine (data.take lineEnd) with
  | none => rfl
  | some first =>
      simp only [Option.bind_some, Option.pure_def]
      cases HeaderMap.find (parseHeaders [] (headerLines data headersEnd lineEnd))
        (ascii "Content-Length") with
      | none => simp
      | some value => rfl

theorem headerLines_append {data : Bytes} {headersEnd : ℕ}
    (hfind : find (crlf ++ crlf) data = some headersEnd) (later : Bytes) (lineEnd : ℕ) :
    headerLines (data ++ later) headersEnd lineEnd = headerLines data headersEnd lineEnd :=
  linesFrom_append ((List.prefix_append crlf crlf).trans (find_spec hfind)) later _ _

theorem requiredLength_append {data : Bytes} {headersEnd : ℕ}
    (hfind : find (crlf ++ crlf) data = some headersEnd) (later : Bytes) (lineEnd : ℕ) :
    requiredLength (data ++ later) headersEnd lineEnd =
      requiredLength data headersEnd lineEnd := by
  rw [requiredLength, headerLines_append hfind]
  rfl

/-- With the body there, nothing that comes later changes what is made of a request. -/
theorem parseHttpRequest_append {data : Bytes} {headersEnd lineEnd : ℕ}
    (hfind : find (crlf ++ crlf) data = some headersEnd) (hline : find crlf data = some lineEnd)
    (hbody : headersEnd + 4 + requiredLength data headersEnd lineEnd ≤ data.length ∨
      parseRequestLine (data.take lineEnd) = none) (later : Bytes) :
    parseHttpRequest (data ++ later) = parseHttpRequest data := by
  have hlength := find_length hline
  have htake : (data ++ later).take lineEnd = data.take lineEnd :=
    List.take_append_of_le_length (by omega)
  rw [parseHttpRequest_eq (find_append hfind later) (find_append hline later),
    parseHttpRequest_eq hfind hline, htake, headerLines_append hfind, requiredLength_append hfind]
  rcases hbody with hbody | hnone
  · have hlong : ¬ (data ++ later).length - (headersEnd + 4) <
        requiredLength data headersEnd lineEnd := by
      rw [List.length_append]
      omega
    have hshort : ¬ data.length - (headersEnd + 4) <
        requiredLength data headersEnd lineEnd := by omega
    have hdrop : (data ++ later).drop (headersEnd + 4) = data.drop (headersEnd + 4) ++ later :=
      List.drop_append_of_le_length (by omega)
    have hbodyTake : (data.drop (headersEnd + 4) ++ later).take
        (requiredLength data headersEnd lineEnd) =
          (data.drop (headersEnd + 4)).take (requiredLength data headersEnd lineEnd) :=
      List.take_append_of_le_length (by rw [List.length_drop]; omega)
    simp only [if_neg hlong, if_neg hshort, hdrop, hbodyTake]
  · rw [hnone]
    rfl

end Reame.Server
