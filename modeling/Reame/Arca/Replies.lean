import Reame.Arca.Server

/-!
# One command, one reply

`decodeReply` is how a client of the protocol reads a reply: a marker and a line, and for
a bulk string as many bytes as the line says.  Whatever the archive holds, the reply to a
command is one such reply with nothing left over, unless the command is unknown and has a
line end in its name (`reply_iff`): the error message repeats the name as it is, so that
the client takes what follows the line end for the next reply.

On a connection that pipelines, the replies read in a row are then those to the commands
in their order (`replies_in_order_iff`).
-/

namespace Reame.Arca

open Wire

/-- A reply, as a client understands it. -/
inductive RespValue
  | simple (text : Bytes)
  | error (text : Bytes)
  | integer (v : ℤ)
  | bulk (data : Bytes)
  | nil
deriving DecidableEq, Repr

instance (text : Bytes) : Decidable (IsNumber text) := inferInstanceAs (Decidable (_ ∧ _))

/-- A bulk string of the given length. -/
def decodeBulk (len : ℕ) (buf : Bytes) : Option (RespValue × Bytes) :=
  if (buf.drop len).take 2 = crlf then some (.bulk (buf.take len), buf.drop (len + 2)) else none

/-- What the line of a reply announces, with what follows the line. -/
def decodeLine (marker : UInt8) (line rest : Bytes) : Option (RespValue × Bytes) :=
  if marker = 43 then some (.simple line, rest)
  else if marker = 45 then some (.error line, rest)
  else if ¬ IsNumber line then none
  else if marker = 58 then some (.integer (numberValue line), rest)
  else if marker = 36 then
    if numberValue line = -1 then some (.nil, rest)
    else if numberValue line < 0 then none
    else decodeBulk (numberValue line).toNat rest
  else none

/-- The first reply of a stream and the bytes behind it; `none` where there is no complete
reply. -/
def decodeReply : Bytes → Option (RespValue × Bytes)
  | [] => none
  | marker :: buf =>
      (findCrlf buf).bind fun eol => decodeLine marker (buf.take eol) (buf.drop (eol + 2))

/-- The first replies of a stream. -/
def decodeReplies : ℕ → Bytes → Option (List RespValue × Bytes)
  | 0, buf => some ([], buf)
  | n + 1, buf =>
      (decodeReply buf).bind fun (value, rest) =>
        (decodeReplies n rest).map fun (values, rest) => (value :: values, rest)

/-- A command is known, or its name is free of line ends. -/
def Framed : Command → Prop
  | [] => True
  | name :: _ => verbOf name = none → findCrlf name = none

/-! ## Numbers -/

theorem isNumber_decimal (n : ℕ) : IsNumber (decimal n) ∧ numberValue (decimal n) = n := by
  have hhead : (decimal n).head? ≠ some 45 := by
    intro hminus
    obtain ⟨rest, hrest⟩ := List.head?_eq_some_iff.mp hminus
    exact absurd (isDigit_of_mem_decimal (hrest ▸ List.mem_cons_self ..)) (by decide)
  have hunsigned : unsignedPart (decimal n) = decimal n := if_neg hhead
  refine ⟨⟨hunsigned.symm ▸ decimal_ne_nil n, ?_⟩, ?_⟩
  · rw [hunsigned, List.all_eq_true]
    exact fun b hb => isDigit_of_mem_decimal hb
  · rw [numberValue, if_neg hhead, hunsigned, digitsValue_decimal]

theorem isNumber_decimalLong (v : ℤ) :
    IsNumber (decimalLong v) ∧ numberValue (decimalLong v) = v := by
  by_cases hneg : v < 0
  · have hunsigned : unsignedPart (45 :: decimal v.natAbs) = decimal v.natAbs := rfl
    rw [decimalLong, if_pos hneg]
    refine ⟨⟨hunsigned.symm ▸ decimal_ne_nil _, ?_⟩, ?_⟩
    · rw [hunsigned, List.all_eq_true]
      exact fun b hb => isDigit_of_mem_decimal hb
    · have hminus : (45 :: decimal v.natAbs).head? = some 45 := rfl
      rw [numberValue, if_pos hminus, hunsigned, digitsValue_decimal]
      omega
  · rw [decimalLong, if_neg hneg]
    obtain ⟨hnumber, hvalue⟩ := isNumber_decimal v.natAbs
    exact ⟨hnumber, by rw [hvalue]; omega⟩

theorem findCrlf_of_isNumber {text : Bytes} (hnumber : IsNumber text) : findCrlf text = none :=
  (findCrlf_eq_none hnumber.cr_notMem).1

/-! ## Reading what is written -/

/-- A line that is free of line ends is cut where it ends. -/
theorem decodeReply_line (marker : UInt8) {line : Bytes} (hline : findCrlf line = none)
    (rest : Bytes) :
    decodeReply (marker :: (line ++ crlf) ++ rest) = decodeLine marker line rest := by
  have hfind := (findCrlf_append ((findCrlf_append_crlf line).mpr hline) rest).2
  have htake : (line ++ crlf ++ rest).take line.length = line := by
    rw [List.append_assoc, List.take_left]
  have hdrop : (line ++ crlf ++ rest).drop (line.length + 2) = rest :=
    List.drop_left' (by simp [crlf])
  calc decodeReply (marker :: (line ++ crlf) ++ rest)
      = decodeLine marker ((line ++ crlf ++ rest).take line.length)
          ((line ++ crlf ++ rest).drop (line.length + 2)) := by
        rw [List.cons_append, decodeReply, hfind, Option.bind_some]
    _ = decodeLine marker line rest := by rw [htake, hdrop]

theorem decodeReply_simple {text : Bytes} (htext : findCrlf text = none) (rest : Bytes) :
    decodeReply (respSimple text ++ rest) = some (.simple text, rest) :=
  (decodeReply_line 43 htext rest).trans rfl

theorem decodeReply_error {text : Bytes} (htext : findCrlf text = none) (rest : Bytes) :
    decodeReply (respError text ++ rest) = some (.error text, rest) :=
  (decodeReply_line 45 htext rest).trans rfl

theorem decodeReply_integer (v : ℤ) (rest : Bytes) :
    decodeReply (respInteger v ++ rest) = some (.integer v, rest) := by
  obtain ⟨hnumber, hvalue⟩ := isNumber_decimalLong v
  refine (decodeReply_line 58 (findCrlf_of_isNumber hnumber) rest).trans ?_
  simp [decodeLine, hnumber, hvalue]

theorem decodeReply_nil (rest : Bytes) : decodeReply (respNil ++ rest) = some (.nil, rest) :=
  (decodeReply_line 36 (by decide) rest).trans rfl

theorem decodeReply_bulk (data rest : Bytes) :
    decodeReply (respBulk data ++ rest) = some (.bulk data, rest) := by
  obtain ⟨hnumber, hvalue⟩ := isNumber_decimal data.length
  have hshape : respBulk data ++ rest =
      36 :: (decimal data.length ++ crlf) ++ (data ++ crlf ++ rest) := by simp [respBulk]
  have htake : (data ++ crlf ++ rest).take data.length = data := by
    rw [List.append_assoc, List.take_left]
  have hend : ((data ++ crlf ++ rest).drop data.length).take 2 = crlf := by
    rw [List.append_assoc, List.drop_left]
    rfl
  have hdrop : (data ++ crlf ++ rest).drop (data.length + 2) = rest :=
    List.drop_left' (by simp [crlf])
  calc decodeReply (respBulk data ++ rest)
      = decodeLine 36 (decimal data.length) (data ++ crlf ++ rest) := by
        rw [hshape, decodeReply_line 36 (findCrlf_of_isNumber hnumber)]
    _ = decodeBulk data.length (data ++ crlf ++ rest) := by
        rw [decodeLine, if_neg (by decide), if_neg (by decide), if_neg (not_not.mpr hnumber),
          if_neg (by decide), if_pos rfl, hvalue, if_neg (by omega), if_neg (by omega),
          Int.toNat_natCast]
    _ = some (.bulk data, rest) := by rw [decodeBulk, if_pos hend, htake, hdrop]

/-! ## Replies of the archive -/

variable {fs : Cache.FileSystem} {config : Palimpsest.CorpusConfig}

/-- A reply that is read whole, whatever follows it. -/
def IsReply (reply : Bytes) : Prop :=
  ∃ value, ∀ rest, decodeReply (reply ++ rest) = some (value, rest)

theorem isReply_simple {text : Bytes} (htext : findCrlf text = none) : IsReply (respSimple text) :=
  ⟨_, decodeReply_simple htext⟩

theorem isReply_error {text : Bytes} (htext : findCrlf text = none) : IsReply (respError text) :=
  ⟨_, decodeReply_error htext⟩

theorem isReply_integer (v : ℤ) : IsReply (respInteger v) := ⟨_, decodeReply_integer v⟩

theorem isReply_nil : IsReply respNil := ⟨_, decodeReply_nil⟩

theorem isReply_bulk (data : Bytes) : IsReply (respBulk data) := ⟨_, decodeReply_bulk data⟩

theorem isReply_errArity {name : Bytes} (hname : (13 : UInt8) ∉ name) : IsReply (errArity name) := by
  refine isReply_error (findCrlf_eq_none ?_).1
  simp only [List.mem_append, not_or]
  exact ⟨⟨by decide +kernel, hname⟩, by decide⟩

theorem isReply_draft (archive : Archive) (payload length : Bytes) :
    IsReply (archive.draft config payload length) := by
  unfold Archive.draft
  split
  · exact isReply_error (by decide +kernel)
  · split
    · exact isReply_error (by decide +kernel)
    · dsimp only
      split_ifs
      · exact isReply_error (by decide +kernel)
      · exact isReply_nil
      · exact isReply_bulk _

/-- Known commands are always answered by one reply. -/
theorem isReply_execute (archive : Archive) (verb : Verb) (args : List Bytes) :
    IsReply (archive.execute fs config verb args).1 := by
  unfold Archive.execute
  split
  · exact isReply_simple (by decide)
  · dsimp only
    split
    · exact isReply_simple (by decide)
    · exact isReply_error (by decide +kernel)
  · exact isReply_errArity (by decide)
  · dsimp only
    rename_i key
    cases (archive.store.get fs key).1 with
    | none => exact isReply_nil
    | some data => exact isReply_bulk data
  · exact isReply_errArity (by decide)
  · exact isReply_integer _
  · exact isReply_errArity (by decide)
  · exact isReply_integer _
  · exact isReply_errArity (by decide)
  · exact isReply_integer _
  · exact isReply_errArity (by decide)
  · unfold Archive.observe
    split
    · exact isReply_error (by decide +kernel)
    · exact isReply_simple (by decide)
  · exact isReply_errArity (by decide)
  · exact isReply_draft archive _ _
  · exact isReply_errArity (by decide)

/-- The message about an unknown command. -/
def unknownCommand (name : Bytes) : Bytes := ascii "ERR unknown command '" ++ name ++ ascii "'"

theorem findCrlf_unknownCommand (name : Bytes) :
    findCrlf (unknownCommand name) = none ↔ findCrlf name = none := by
  have hfront : (13 : UInt8) ∉ ascii "ERR unknown command '" := by decide +kernel
  rw [unknownCommand, List.append_assoc, findCrlf_line_append hfront, Option.map_eq_none_iff]
  exact findCrlf_append_byte name (by decide)

theorem isReply_dispatch (archive : Archive) {cmd : Command} (hframed : Framed cmd) :
    IsReply (archive.dispatch fs config cmd).1 := by
  cases cmd with
  | nil => exact isReply_error (by decide +kernel)
  | cons name args =>
      rw [Archive.dispatch]
      cases hverb : verbOf name with
      | some verb => exact isReply_execute archive verb args
      | none => exact isReply_error ((findCrlf_unknownCommand name).mpr (hframed hverb))

/-- The error about a name with a line end is over at the line end. -/
theorem decodeReply_unknownCommand {name : Bytes} (hname : findCrlf name ≠ none) (value : RespValue) :
    decodeReply (respError (unknownCommand name)) ≠ some (value, []) := by
  obtain ⟨eol, hfind⟩ := Option.ne_none_iff_exists'.mp
    (mt (findCrlf_unknownCommand name).mp hname)
  obtain ⟨hle, hsame⟩ := findCrlf_append hfind crlf
  rw [respError, decodeReply, hsame, Option.bind_some, decodeLine, if_neg (by decide), if_pos rfl]
  intro heq
  have hrest : ((unknownCommand name ++ crlf).drop (eol + 2)).length = 0 := by
    simp only [Option.some.injEq, Prod.mk.injEq] at heq
    rw [heq.2, List.length_nil]
  rw [List.length_drop, List.length_append, crlf, List.length_cons, List.length_cons] at hrest
  omega

/-- The reply to a command is one reply with nothing left over, exactly if the command is known
or has no line end in its name. -/
theorem reply_iff (archive : Archive) (cmd : Command) :
    (∃ value, decodeReply (archive.dispatch fs config cmd).1 = some (value, [])) ↔ Framed cmd := by
  constructor
  · rintro ⟨value, hvalue⟩
    cases cmd with
    | nil => trivial
    | cons name args =>
        intro hverb
        by_contra hname
        rw [Archive.dispatch, hverb] at hvalue
        exact decodeReply_unknownCommand hname value hvalue
  · intro hframed
    obtain ⟨value, hvalue⟩ := isReply_dispatch archive hframed
    exact ⟨value, by simpa using hvalue []⟩

/-! ## A pipeline -/

/-- The replies to commands in a row. -/
def Archive.replies (fs : Cache.FileSystem) (config : Palimpsest.CorpusConfig) (archive : Archive) :
    List Command → List Bytes
  | [] => []
  | cmd :: cmds =>
      let (reply, archive) := archive.dispatch fs config cmd
      reply :: replies fs config archive cmds

theorem Archive.flatten_replies (archive : Archive) (cmds : List Command) :
    (archive.replies fs config cmds).flatten = (archive.dispatchAll fs config cmds).1 := by
  induction cmds generalizing archive with
  | nil => rfl
  | cons cmd cmds ih => simp [replies, dispatchAll, ih]

/-- What the client reads in a row are the replies to its commands, each to its own. -/
def InOrder (replies : List Bytes) : Prop :=
  ∃ values : List RespValue,
    List.Forall₂ (fun reply value => decodeReply reply = some (value, [])) replies values ∧
      decodeReplies replies.length replies.flatten = some (values, [])

theorem inOrder_of_isReply {replies : List Bytes} (hreplies : ∀ reply ∈ replies, IsReply reply) :
    InOrder replies := by
  induction replies with
  | nil => exact ⟨[], .nil, rfl⟩
  | cons reply replies ih =>
      obtain ⟨hfirst, hrest⟩ := List.forall_mem_cons.mp hreplies
      obtain ⟨value, hvalue⟩ := hfirst
      obtain ⟨values, hall, hdecode⟩ := ih hrest
      refine ⟨value :: values, .cons (by simpa using hvalue []) hall, ?_⟩
      rw [List.flatten_cons, List.length_cons, decodeReplies, hvalue, Option.bind_some]
      dsimp only
      rw [hdecode]
      rfl

theorem isReply_replies (archive : Archive) {cmds : List Command}
    (hframed : ∀ cmd ∈ cmds, Framed cmd) :
    ∀ reply ∈ archive.replies fs config cmds, IsReply reply := by
  induction cmds generalizing archive with
  | nil => nofun
  | cons cmd cmds ih =>
      obtain ⟨hfirst, hrest⟩ := List.forall_mem_cons.mp hframed
      exact List.forall_mem_cons.mpr ⟨isReply_dispatch archive hfirst, ih _ hrest⟩

theorem framed_of_inOrder (archive : Archive) {cmds : List Command}
    (hreplies : ∀ reply ∈ archive.replies fs config cmds,
      ∃ value, decodeReply reply = some (value, [])) : ∀ cmd ∈ cmds, Framed cmd := by
  induction cmds generalizing archive with
  | nil => nofun
  | cons cmd cmds ih =>
      obtain ⟨hfirst, hrest⟩ := List.forall_mem_cons.mp hreplies
      exact List.forall_mem_cons.mpr ⟨(reply_iff archive cmd).mp hfirst, ih _ hrest⟩

/-- Every command gets exactly one reply, and on a pipeline the replies answer the commands in
their order, exactly if no unknown command has a line end in its name. -/
theorem replies_in_order_iff (fs : Cache.FileSystem) (config : Palimpsest.CorpusConfig)
    (archive : Archive) :
    (∀ cmd : Command, (∃ value, decodeReply (archive.dispatch fs config cmd).1 = some (value, [])) ↔
      Framed cmd) ∧
    ∀ cmds : List Command, InOrder (archive.replies fs config cmds) ↔ ∀ cmd ∈ cmds, Framed cmd := by
  refine ⟨reply_iff archive, fun cmds => ⟨?_, fun hframed => ?_⟩⟩
  · rintro ⟨values, hall, -⟩
    refine @framed_of_inOrder fs config archive cmds fun reply hreply => ?_
    obtain ⟨i, hi, rfl⟩ := List.mem_iff_getElem.mp hreply
    exact ⟨_, hall.get hi (hall.length_eq ▸ hi)⟩
  · exact inOrder_of_isReply (isReply_replies archive hframed)

/-- A command with a line end in its name, and then a `GET` of a key that is not there: the
second reply that the client reads is not the one to the `GET`. -/
theorem name_with_line_end :
    let archive : Archive := { store := Cache.DiskStore.reopen .faultless 0 {} }
    let name := ascii "A\r\n+OK"
    let get := [ascii "GET", ascii "k"]
    parseOne (ascii "*1\r\n$6\r\nA\r\n+OK\r\n") = .item [name] [] ∧
      decodeReplies 2 (archive.dispatchAll .faultless {} [[name], get]).1 =
        some ([.error (ascii "ERR unknown command 'A"), .simple (ascii "OK'")], respNil) ∧
      decodeReply (archive.dispatch .faultless {} get).1 = some (.nil, []) := by
  decide +kernel

end Reame.Arca
