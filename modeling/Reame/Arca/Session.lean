import Reame.Arca.Client
import Reame.Arca.Replies
import Reame.Arca.Server
import Reame.Cache.StoreRuns

/-!
# A client and the daemon

`ArcaClient` on one side of a connection and `ArcaServer::Impl::serve` on the other, with
the bytes under way between them.  Either side reads as many of the bytes as it happens
to get; a connection is kept until something goes wrong.

Without failures nothing goes wrong.  While a call is under way, the daemon has got a part
of its command or the client a part of the reply to it (`Exchange`), neither of which
decides, and the rest is under way.  So every call is answered with what the archive replies
to its command, and nothing is left on the connection (`InStep`).

Both ends write in full, and no read fails or times out.
-/

namespace Reame.Arca

open Wire Incremental Interleaving

/-! ## Commands on the wire -/

/-- What `get` and `set` write. -/
def Operation.request : Operation → Bytes
  | .get key => ascii "*2\r\n$3\r\nGET\r\n" ++ respBulk key
  | .set key value => ascii "*3\r\n$3\r\nSET\r\n" ++ respBulk key ++ respBulk value

/-- The command of an operation. -/
def Operation.command : Operation → Command
  | .get key => [ascii "GET", key]
  | .set key value => [ascii "SET", key, value]

/-- What the archive does with its store. -/
def Operation.storeOp : Operation → Cache.StoreOp
  | .get key => .get key
  | .set key value => .put key value

/-- No key and no value is longer than `kMaxBulkBytes`. -/
def Operation.Fits : Operation → Prop
  | .get key => key.length ≤ kMaxBulkBytes
  | .set key value => key.length ≤ kMaxBulkBytes ∧ value.length ≤ kMaxBulkBytes

instance (op : Operation) : Decidable op.Fits :=
  match op with
  | .get _ => inferInstanceAs (Decidable (_ ≤ _))
  | .set _ _ => inferInstanceAs (Decidable (_ ∧ _))

theorem parseBulk_respBulk {part : Bytes} (hpart : part.length ≤ kMaxBulkBytes) (rest : Bytes) :
    parseBulk (respBulk part ++ rest) = .item part rest := by
  obtain ⟨hnumber, hvalue⟩ := isNumber_decimal part.length
  have hmax : (part.length : ℤ) ≤ maxBulkBytes := by
    rw [maxBulkBytes]
    exact_mod_cast hpart
  refine parseBulk_payload ⟨hnumber, hvalue, by omega, ?_⟩ hmax rest
  exact hmax.trans_lt (by decide)

theorem parseBulks_respBulk {parts : List Bytes}
    (hparts : ∀ part ∈ parts, part.length ≤ kMaxBulkBytes) (before : Command) (rest : Bytes) :
    parseBulks parts.length before ((parts.map respBulk).flatten ++ rest) =
      .item (before ++ parts) rest := by
  induction parts generalizing before with
  | nil => simp [parseBulks]
  | cons part parts ih =>
      obtain ⟨hpart, hparts⟩ := List.forall_mem_cons.mp hparts
      calc parseBulks (part :: parts).length before (((part :: parts).map respBulk).flatten ++ rest)
          = parseBulks parts.length (before ++ [part]) ((parts.map respBulk).flatten ++ rest) := by
            rw [List.length_cons, parseBulks, List.map_cons, List.flatten_cons, List.append_assoc,
              parseBulk_respBulk hpart, Step.andThen]
        _ = .item (before ++ [part] ++ parts) rest := ih hparts _
        _ = .item (before ++ part :: parts) rest := by
            rw [List.append_assoc, List.singleton_append]

/-- A command of bulk strings is read as it was written. -/
theorem parseOne_respBulk {parts : Command} (hcount : parts.length ≤ 1024)
    (hparts : ∀ part ∈ parts, part.length ≤ kMaxBulkBytes) (rest : Bytes) :
    parseOne (42 :: (decimal parts.length ++ crlf ++ (parts.map respBulk).flatten) ++ rest) =
      .item parts rest := by
  obtain ⟨hnumber, hvalue⟩ := isNumber_decimal parts.length
  have hmax : (parts.length : ℤ) ≤ maxElements := by
    rw [maxElements]
    exact_mod_cast hcount
  have hlength : IsLength (decimal parts.length) parts.length :=
    ⟨hnumber, hvalue, by omega, hmax.trans_lt (by decide)⟩
  calc parseOne (42 :: (decimal parts.length ++ crlf ++ (parts.map respBulk).flatten) ++ rest)
      = parseElements parts.length ((parts.map respBulk).flatten ++ rest) := by
        rw [List.cons_append, List.append_assoc, parseOne, if_neg (by simp),
          parseNumberLine_length hlength, Step.andThen]
    _ = parseBulks parts.length [] ((parts.map respBulk).flatten ++ rest) := by
        rw [parseElements, if_neg (by omega), Int.toNat_natCast]
    _ = .item parts rest := parseBulks_respBulk hparts [] rest

/-- A command is what the client writes it as. -/
theorem Operation.request_eq (op : Operation) : op.request =
    42 :: (decimal op.command.length ++ crlf ++ (op.command.map respBulk).flatten) := by
  have hget : ascii "*2\r\n$3\r\nGET\r\n" =
      42 :: (decimal 2 ++ crlf ++ respBulk (ascii "GET")) := by decide +kernel
  have hset : ascii "*3\r\n$3\r\nSET\r\n" =
      42 :: (decimal 3 ++ crlf ++ respBulk (ascii "SET")) := by decide +kernel
  cases op with
  | get key => simp [request, command, hget]
  | set key value => simp [request, command, hset]

theorem Operation.Fits.command {op : Operation} (hop : op.Fits) :
    ∀ part ∈ op.command, part.length ≤ kMaxBulkBytes := by
  cases op with
  | get key => simpa [Operation.command] using ⟨by decide, hop⟩
  | set key value => simpa [Operation.command] using ⟨by decide, hop⟩

theorem parseOne_request {op : Operation} (hop : op.Fits) :
    parseOne op.request = .item op.command [] := by
  have hcount : op.command.length ≤ 1024 := by
    cases op <;> simp [Operation.command]
  simpa [op.request_eq] using parseOne_respBulk hcount hop.command []

/-- Until all of it is there, a command asks for more. -/
theorem parseOne_part {op : Operation} (hop : op.Fits) {part later : Bytes}
    (hsplit : part ++ later = op.request) (hlater : later ≠ []) : parseOne part = .more := by
  have hitem : parseOne (part ++ later) = .item op.command [] := by
    rw [hsplit, parseOne_request hop]
  exact settled_parseOne.1.more_of_item hitem hlater

/-! ## The two ends of a connection -/

/-- A connection: the bytes to the daemon and the bytes to the client that have not been read,
and the parser of the daemon, as long as it keeps the connection open. -/
structure Link where
  outbound : Bytes := []
  inbound : Bytes := []
  parser : Option RespParser := some {}
deriving DecidableEq, Repr

/-- What the client does: nothing, or it is in `read_reply` with the bytes received so far. -/
inductive CallState
  | idle
  | reading (op : Operation) (buf : Bytes)
deriving DecidableEq, Repr

/-- A call that has returned: the bytes that `read_reply` has received, and what it has made of
them. -/
structure Returned where
  op : Operation
  consumed : Bytes
  value : Option Bytes
deriving DecidableEq, Repr

/-- The client, the daemon and the connection between them. -/
structure Session where
  archive : Archive
  sock : Option Link := none
  call : CallState := .idle
  returned : List Returned := []

/-- What can happen next; a read returns a number of bytes, or fails because the other end has
closed the connection. -/
inductive SessionAction
  | call (op : Operation)
  | daemonReads (n : ℕ)
  | clientReads (n : ℕ)
  | endOfStream
deriving DecidableEq, Repr

namespace Session

/-- `connect`, if need be, and `write_all`. -/
def callStep (s : Session) (op : Operation) : Option Session :=
  match s.call with
  | .idle =>
      let link := s.sock.getD {}
      some { s with
        sock := some { link with outbound := link.outbound ++ op.request }
        call := .reading op [] }
  | .reading _ _ => none

/-- `read_some` in `serve`, and what the daemon does with the bytes. -/
def daemonStep (fs : Cache.FileSystem) (config : Palimpsest.CorpusConfig) (s : Session) (n : ℕ) :
    Option Session :=
  match s.sock with
  | some ⟨outbound, inbound, some parser⟩ =>
      if 0 < n ∧ n ≤ 8192 ∧ n ≤ outbound.length then
        match parser.feed (outbound.take n) with
        | (some fault, _) =>
            let error := (onThrow s.archive fault).written
            some { s with sock := some ⟨outbound.drop n, inbound ++ error, none⟩ }
        | (none, parser) =>
            let (ready, parser) := parser.take
            let (out, archive) := s.archive.dispatchAll fs config ready
            some { s with archive, sock := some ⟨outbound.drop n, inbound ++ out, some parser⟩ }
      else none
  | _ => none

/-- The call returns. -/
def finish (s : Session) (sock : Option Link) (returned : Returned) : Session :=
  { s with sock, call := .idle, returned := s.returned ++ [returned] }

/-- `recv_more`, and `read_reply` goes on with what it has; where it throws, the connection is
dropped. -/
def clientStep (s : Session) (n : ℕ) : Option Session :=
  match s.sock, s.call with
  | some link, .reading op buf =>
      if 0 < n ∧ n ≤ 4096 ∧ n ≤ link.inbound.length then
        let buf := buf ++ link.inbound.take n
        let link := { link with inbound := link.inbound.drop n }
        match readReply buf with
        | .more => some { s with sock := some link, call := .reading op buf }
        | .throws _ => some (s.finish none ⟨op, buf, none⟩)
        | .reply value => some (s.finish (some link) ⟨op, buf, value⟩)
      else none
  | _, _ => none

/-- `recv_more` behind the last byte of a connection that the daemon has closed. -/
def endStep (s : Session) : Option Session :=
  match s.sock, s.call with
  | some ⟨_, [], none⟩, .reading op buf => some (s.finish none ⟨op, buf, none⟩)
  | _, _ => none

/-- One step of the client or of the daemon. -/
def act (fs : Cache.FileSystem) (config : Palimpsest.CorpusConfig) (s : Session) :
    SessionAction → Option Session
  | .call op => s.callStep op
  | .daemonReads n => s.daemonStep fs config n
  | .clientReads n => s.clientStep n
  | .endOfStream => s.endStep

/-- The action is a read. -/
def IsRead : SessionAction → Prop
  | .call _ => False
  | _ => True

/-- The keys and values of a call fit. -/
def Fitting : Session → SessionAction → Prop
  | _, .call op => op.Fits
  | _, _ => True

instance (s : Session) (a : SessionAction) : Decidable (Fitting s a) :=
  match a with
  | .call op => inferInstanceAs (Decidable op.Fits)
  | .daemonReads _ | .clientReads _ | .endOfStream => inferInstanceAs (Decidable True)

end Session

/-! ## What the archive answers -/

/-- The reply to an operation. -/
def Operation.reply (fs : Cache.FileSystem) (store : Cache.DiskStore) : Operation → Reply
  | .get key => (store.get fs key).1.elim .nil .bulk
  | .set key value =>
      if (store.put fs key value).1 then .ok
      else .error (ascii "ERR value larger than the archive budget")

/-- What a call returns with that reply. -/
def answer (fs : Cache.FileSystem) (store : Cache.DiskStore) (op : Operation) : Returned :=
  ⟨op, (op.reply fs store).bytes, (op.reply fs store).value⟩

/-- What calls return, one after the other. -/
def answers (fs : Cache.FileSystem) (store : Cache.DiskStore) : List Operation → List Returned
  | [] => []
  | op :: ops => answer fs store op :: answers fs (store.apply fs op.storeOp) ops

/-- The store after them. -/
def after (fs : Cache.FileSystem) (store : Cache.DiskStore) (ops : List Operation) :
    Cache.DiskStore :=
  store.run fs (ops.map Operation.storeOp)

variable {fs : Cache.FileSystem} {config : Palimpsest.CorpusConfig} {store : Cache.DiskStore}

theorem dispatch_command (archive : Archive) (op : Operation) :
    archive.dispatch fs config op.command =
      ((op.reply fs archive.store).bytes,
        { archive with store := archive.store.apply fs op.storeOp }) := by
  have hget : verbOf (ascii "GET") = some .get := by decide +kernel
  have hset : verbOf (ascii "SET") = some .set := by decide +kernel
  cases op with
  | get key =>
      rw [Operation.command, Archive.dispatch, hget]
      cases hfound : (archive.store.get fs key).1 with
      | none => simp [Archive.execute, Operation.reply, Operation.storeOp, hfound,
          Cache.DiskStore.apply, Reply.bytes]
      | some data => simp [Archive.execute, Operation.reply, Operation.storeOp, hfound,
          Cache.DiskStore.apply, Reply.bytes]
  | set key value =>
      rw [Operation.command, Archive.dispatch, hset]
      cases hstored : (archive.store.put fs key value).1 with
      | false => simp [Archive.execute, Operation.reply, Operation.storeOp, hstored,
          Cache.DiskStore.apply, Reply.bytes]
      | true => simp [Archive.execute, Operation.reply, Operation.storeOp, hstored,
          Cache.DiskStore.apply, Reply.bytes]

theorem after_append (store : Cache.DiskStore) (ops later : List Operation) :
    after fs store (ops ++ later) = after fs (after fs store ops) later := by
  simp [after, Cache.DiskStore.run]

theorem answers_append (store : Cache.DiskStore) (ops later : List Operation) :
    answers fs store (ops ++ later) =
      answers fs store ops ++ answers fs (after fs store ops) later := by
  induction ops generalizing store with
  | nil => rfl
  | cons op ops ih =>
      rw [List.cons_append, answers, ih, answers, List.cons_append]
      rfl

/-- Each call is answered from the store that the calls before it have left. -/
theorem answer_of_answers {ops : List Operation} {earlier later : List Returned} {r : Returned}
    (hsplit : answers fs store ops = earlier ++ r :: later) :
    r = answer fs (after fs store (earlier.map Returned.op)) r.op := by
  induction earlier generalizing store ops with
  | nil =>
      cases ops with
      | nil => cases hsplit
      | cons op ops =>
          rw [List.nil_append, answers, List.cons.injEq] at hsplit
          rw [← hsplit.1]
          rfl
  | cons first earlier ih =>
      cases ops with
      | nil => cases hsplit
      | cons op ops =>
          rw [List.cons_append, answers, List.cons.injEq] at hsplit
          obtain ⟨rfl, hrest⟩ := hsplit
          exact ih hrest

/-- What `read_reply` has received are the replies of the archive. -/
theorem consumed_answers (archive : Archive) (ops : List Operation) :
    (answers fs archive.store ops).map Returned.consumed =
      archive.replies fs config (ops.map Operation.command) := by
  induction ops generalizing archive with
  | nil => rfl
  | cons op ops ih =>
      rw [answers, List.map_cons, List.map_cons, Archive.replies, dispatch_command]
      exact congrArg _ (ih { archive with store := archive.store.apply fs op.storeOp })

/-- No file has more than the daemon takes. -/
abbrev Bounded (store : Cache.DiskStore) : Prop :=
  store.disk.Labelled fun key content => content.length ≤ 4 + key.length + kMaxBulkBytes

/-- What is written for data that the daemon takes. -/
theorem length_of_encodeFile {key value kept : Bytes} (hvalue : value.length ≤ kMaxBulkBytes)
    (hkept : kept <+: Cache.encodeFile key value) :
    kept.length ≤ 4 + key.length + kMaxBulkBytes := by
  have hle := hkept.length_le
  rw [Cache.length_encodeFile, Cache.entrySize] at hle
  omega

theorem Bounded.after (hstore : Bounded store) {ops : List Operation} (hops : ∀ op ∈ ops, op.Fits) :
    Bounded (after fs store ops) := by
  refine Cache.DiskStore.labelled_run hstore fun key data hmem => ?_
  obtain ⟨op, hop, hput⟩ := List.mem_map.mp hmem
  have hfits := hops op hop
  cases op with
  | get key' => cases hput
  | set key' value =>
      cases hput
      have hsmall : kMaxBulkBytes < 2 ^ 32 := by decide
      exact ⟨hfits.1.trans_lt hsmall, fun _ hkept => length_of_encodeFile hfits.2 hkept⟩

theorem Bounded.wellFormed (hstore : Bounded store) (op : Operation) :
    (op.reply fs store).WellFormed := by
  cases op with
  | get key =>
      rw [Operation.reply]
      cases hfound : (store.get fs key).1 with
      | none => trivial
      | some data =>
          obtain ⟨content, hcontent, hlength⟩ := Cache.DiskStore.get_of_labelled hstore hfound
          have hsmall : kMaxBulkBytes < 2 ^ 63 := by decide
          show data.length < 2 ^ 63
          omega
  | set key value =>
      rw [Operation.reply]
      split
      · trivial
      · show (13 : UInt8) ∉ _
        decide +kernel

/-! ## Reading what has been written -/

theorem feed_part {op : Operation} (hop : op.Fits) {parser : RespParser} {part later : Bytes}
    (hrequest : parser.buf ++ (part ++ later) = op.request) (hready : parser.ready = [])
    (hlater : later ≠ []) : parser.feed part = (none, ⟨parser.buf ++ part, []⟩) := by
  rw [← List.append_assoc] at hrequest
  have hdrain : respParser.drain (parser.buf ++ part) = ⟨[], parser.buf ++ part, none⟩ :=
    respParser.drain_of_more (parseOne_part hop hrequest hlater)
  simp [RespParser.feed, hdrain, hready]

theorem feed_whole {op : Operation} (hop : op.Fits) {parser : RespParser} {part : Bytes}
    (hrequest : parser.buf ++ part = op.request) (hready : parser.ready = []) :
    parser.feed part = (none, ⟨[], [op.command]⟩) := by
  have hitem : respParser.parse (parser.buf ++ part) = .item op.command [] := by
    rw [hrequest]
    exact parseOne_request hop
  have hnil : respParser.drain [] = ⟨[], [], none⟩ := rfl
  have hkept : op.command ≠ [] := by cases op <;> simp [Operation.command]
  simp [RespParser.feed, respParser.drain_of_item hitem, hnil, Drained.behind, hready, hkept]

namespace Session

/-- The operations of the calls that have returned. -/
def calls (s : Session) : List Operation := s.returned.map Returned.op

/-- A call and the connection that it waits on: the daemon has a part of the command and the rest
is under way, or the client has a part of the reply. -/
inductive Exchange (fs : Cache.FileSystem) (before : Cache.DiskStore) (op : Operation) :
    Bytes → Link → Cache.DiskStore → Prop
  | asked {parser : RespParser} {outbound : Bytes}
      (hrequest : parser.buf ++ outbound = op.request) (hready : parser.ready = [])
      (hmore : outbound ≠ []) : Exchange fs before op [] ⟨outbound, [], some parser⟩ before
  | answered {buf inbound : Bytes} (hreply : buf ++ inbound = (op.reply fs before).bytes)
      (hmore : inbound ≠ []) :
      Exchange fs before op buf ⟨[], inbound, some {}⟩ (before.apply fs op.storeOp)

/-- The calls that have returned have been answered in their turn, and nothing is under way but
the exchange of one that has not. -/
structure InStep (fs : Cache.FileSystem) (first : Cache.DiskStore) (s : Session) : Prop where
  fits : ∀ op ∈ s.calls, op.Fits
  returned : s.returned = answers fs first s.calls
  idle : s.call = .idle → s.archive.store = after fs first s.calls ∧
    s.sock = if s.returned = [] then none else some {}
  reading : ∀ op buf, s.call = .reading op buf → op.Fits ∧ ∃ link, s.sock = some link ∧
    Exchange fs (after fs first s.calls) op buf link s.archive.store

variable {first : Cache.DiskStore} {s s' : Session}

theorem inStep_start (archive : Archive) : InStep fs archive.store { archive } :=
  ⟨nofun, rfl, fun _ => ⟨rfl, rfl⟩, nofun⟩

theorem InStep.callStep (hs : InStep fs first s) {op : Operation} (hop : op.Fits)
    (hstep : s.callStep op = some s') : InStep fs first s' := by
  cases hcall : s.call with
  | reading op' buf =>
      rw [Session.callStep, hcall] at hstep
      cases hstep
  | idle =>
      obtain ⟨hstore, hsock⟩ := hs.idle hcall
      have hempty : s.sock.getD {} = {} := by
        rw [hsock]
        split <;> rfl
      rw [Session.callStep, hcall, hempty] at hstep
      cases hstep
      refine ⟨hs.fits, hs.returned, nofun, ?_⟩
      rintro _ _ ⟨⟩
      have hmore : op.request ≠ [] := by rw [op.request_eq]; simp
      refine ⟨hop, _, rfl, ?_⟩
      rw [hstore]
      exact .asked rfl rfl hmore

/-- The daemon cannot read what is not there. -/
theorem daemonStep_silent {inbound : Bytes} {parser : Option RespParser}
    (hsock : s.sock = some ⟨[], inbound, parser⟩) (n : ℕ) : s.daemonStep fs config n = none := by
  rw [daemonStep, hsock]
  cases parser with
  | none => rfl
  | some parser =>
      have hn : ¬ (0 < n ∧ n ≤ 8192 ∧ n ≤ ([] : Bytes).length) := by
        rw [List.length_nil]
        omega
      exact if_neg hn

/-- A read of the daemon gets a part of the command and keeps it, or the rest of it and answers. -/
theorem daemonStep_cases (hs : InStep fs first s) {n : ℕ}
    (hstep : s.daemonStep fs config n = some s') :
    ∃ op parser outbound, s.call = .reading op [] ∧ op.Fits ∧
      s.archive.store = after fs first s.calls ∧ s.sock = some ⟨outbound, [], some parser⟩ ∧
      0 < n ∧ n ≤ outbound.length ∧
      ((outbound.drop n ≠ [] ∧ (parser.buf ++ outbound.take n) ++ outbound.drop n = op.request ∧
          s' = { s with
            sock := some ⟨outbound.drop n, [], some ⟨parser.buf ++ outbound.take n, []⟩⟩ }) ∨
        s' = { s with
          archive := { s.archive with store := s.archive.store.apply fs op.storeOp }
          sock := some ⟨[], (op.reply fs s.archive.store).bytes, some {}⟩ }) := by
  cases hcall : s.call with
  | idle =>
      have hsock := (hs.idle hcall).2
      split_ifs at hsock with hfirst
      · rw [daemonStep, hsock] at hstep
        cases hstep
      · rw [daemonStep_silent hsock] at hstep
        cases hstep
  | reading op buf =>
      obtain ⟨hop, link, hsock, hexchange⟩ := hs.reading op buf hcall
      generalize hstore : s.archive.store = store at hexchange
      cases hexchange with
      | answered hreply hmore =>
          rw [daemonStep_silent hsock] at hstep
          cases hstep
      | @asked parser outbound hrequest hready hmore =>
          rw [daemonStep, hsock] at hstep
          dsimp only at hstep
          split_ifs at hstep with hn
          refine ⟨op, parser, outbound, rfl, hop, rfl, hsock, hn.1, hn.2.2, ?_⟩
          rw [← hcall]
          rw [← List.take_append_drop n outbound] at hrequest
          by_cases hwhole : outbound.drop n = []
          · rw [hwhole, List.append_nil] at hrequest
            rw [feed_whole hop hrequest hready, hwhole] at hstep
            simp only [RespParser.take, Archive.dispatchAll, dispatch_command, List.append_nil,
              List.nil_append, Option.some.injEq, hstore] at hstep
            exact .inr hstep.symm
          · rw [feed_part hop hrequest hready hwhole] at hstep
            simp only [RespParser.take, Archive.dispatchAll, List.append_nil,
              Option.some.injEq] at hstep
            rw [← List.append_assoc] at hrequest
            exact .inl ⟨hwhole, hrequest, hstep.symm⟩

theorem InStep.daemonStep (hs : InStep fs first s) {n : ℕ}
    (hstep : s.daemonStep fs config n = some s') : InStep fs first s' := by
  obtain ⟨op, parser, outbound, hcall, hop, hstore, -, -, -, hpart | hwhole⟩ :=
    daemonStep_cases hs hstep
  · obtain ⟨hmore, hrequest, rfl⟩ := hpart
    refine ⟨hs.fits, hs.returned, fun hidle => by simp [hcall] at hidle, fun op' buf' hcall' => ?_⟩
    obtain ⟨rfl, rfl⟩ : op = op' ∧ [] = buf' := by simpa [hcall] using hcall'
    refine ⟨hop, _, rfl, ?_⟩
    simp only [hstore]
    exact .asked hrequest rfl hmore
  · subst hwhole
    refine ⟨hs.fits, hs.returned, fun hidle => by simp [hcall] at hidle, fun op' buf' hcall' => ?_⟩
    obtain ⟨rfl, rfl⟩ : op = op' ∧ [] = buf' := by simpa [hcall] using hcall'
    refine ⟨hop, _, rfl, ?_⟩
    simp only [hstore]
    exact .answered rfl (List.ne_nil_of_length_pos ClientState.reply_bytes_pos)

theorem calls_finish (s : Session) (sock : Option Link) (returned : Returned) :
    (s.finish sock returned).calls = s.calls ++ [returned.op] := by
  simp [calls, finish]

/-- A read of the client gets a part of the reply and goes on, or the rest of it and returns. -/
theorem clientStep_cases (hbounded : Bounded first) (hs : InStep fs first s) {n : ℕ}
    (hstep : s.clientStep n = some s') :
    ∃ op buf inbound, s.call = .reading op buf ∧ op.Fits ∧
      s.archive.store = (after fs first s.calls).apply fs op.storeOp ∧
      s.sock = some ⟨[], inbound, some {}⟩ ∧ 0 < n ∧ n ≤ inbound.length ∧
      ((inbound.drop n ≠ [] ∧
          (buf ++ inbound.take n) ++ inbound.drop n =
            (op.reply fs (after fs first s.calls)).bytes ∧
          s' = { s with
            sock := some ⟨[], inbound.drop n, some {}⟩
            call := .reading op (buf ++ inbound.take n) }) ∨
        s' = s.finish (some {}) (answer fs (after fs first s.calls) op)) := by
  cases hcall : s.call with
  | idle =>
      rw [clientStep, hcall] at hstep
      simp at hstep
  | reading op buf =>
      obtain ⟨hop, link, hsock, hexchange⟩ := hs.reading op buf hcall
      rw [clientStep, hsock, hcall] at hstep
      generalize hstore : s.archive.store = store at hexchange
      cases hexchange with
      | asked hrequest hready hmore =>
          dsimp only at hstep
          split_ifs at hstep with hn
          have hnone : n ≤ 0 := hn.2.2
          omega
      | @answered buf inbound hreply hmore =>
          dsimp only at hstep
          split_ifs at hstep with hn
          refine ⟨op, buf, inbound, rfl, hop, rfl, hsock, hn.1, hn.2.2, ?_⟩
          have hwell : (op.reply fs (after fs first s.calls)).WellFormed :=
            (hbounded.after hs.fits).wellFormed op
          rw [← List.take_append_drop n inbound, ← List.append_assoc] at hreply
          by_cases hwhole : inbound.drop n = []
          · rw [hwhole, List.append_nil] at hreply
            rw [hreply, readReply_bytes hwell, hwhole, Option.some.injEq] at hstep
            exact .inr hstep.symm
          · have hlt : (buf ++ inbound.take n).length <
                (op.reply fs (after fs first s.calls)).bytes.length := by
              have hpos := List.length_pos_iff.mpr hwhole
              simp only [← hreply, List.length_append]
              omega
            rw [readReply_part hwell ⟨_, hreply⟩ hlt, Option.some.injEq] at hstep
            exact .inl ⟨hwhole, hreply, hstep.symm⟩

theorem InStep.clientStep (hbounded : Bounded first) (hs : InStep fs first s) {n : ℕ}
    (hstep : s.clientStep n = some s') : InStep fs first s' := by
  obtain ⟨op, buf, inbound, hcall, hop, hstore, -, -, -, hpart | hwhole⟩ :=
    clientStep_cases hbounded hs hstep
  · obtain ⟨hmore, hreply, rfl⟩ := hpart
    refine ⟨hs.fits, hs.returned, nofun, ?_⟩
    rintro _ _ ⟨⟩
    refine ⟨hop, _, rfl, ?_⟩
    simp only [hstore]
    exact .answered hreply hmore
  · subst hwhole
    refine ⟨?_, ?_, fun _ => ?_, nofun⟩
    · rw [calls_finish]
      simpa [or_imp, forall_and] using ⟨hs.fits, hop⟩
    · rw [calls_finish, answers_append, ← hs.returned]
      rfl
    · rw [calls_finish, after_append, if_neg (by simp [finish])]
      exact ⟨hstore, rfl⟩

/-- The daemon never closes the connection. -/
theorem endStep_eq_none (hs : InStep fs first s) : s.endStep = none := by
  cases hcall : s.call with
  | idle => simp [endStep, hcall]
  | reading op buf =>
      obtain ⟨-, link, hsock, hexchange⟩ := hs.reading op buf hcall
      generalize s.archive.store = store at hexchange
      cases hexchange with
      | asked => simp [endStep, hsock]
      | answered => simp [endStep, hsock]

theorem InStep.act (hbounded : Bounded first) (hs : InStep fs first s) {a : SessionAction}
    (hfitting : Fitting s a) (hstep : s.act fs config a = some s') : InStep fs first s' := by
  cases a with
  | call op => exact hs.callStep hfitting hstep
  | daemonReads n => exact hs.daemonStep hstep
  | clientReads n => exact hs.clientStep hbounded hstep
  | endOfStream =>
      rw [Session.act, endStep_eq_none hs] at hstep
      cases hstep

theorem inStep_of_reaches {archive : Archive} (hbounded : Bounded archive.store)
    (hreach : Reaches (act fs config) Fitting { archive } s) : InStep fs archive.store s :=
  hreach.invariant (InStep fs archive.store) (inStep_start archive)
    fun _ _ _ hs hfitting hstep => hs.act hbounded hfitting hstep

/-! ## Every call returns -/

/-- One of the two ends reads. -/
def Reads (fs : Cache.FileSystem) (config : Palimpsest.CorpusConfig) (s s' : Session) : Prop :=
  ∃ a, IsRead a ∧ s.act fs config a = some s'

/-- The bytes that are still to be read before the call returns. -/
def remaining (fs : Cache.FileSystem) (s : Session) : ℕ :=
  match s.sock, s.call with
  | some link, .reading op _ =>
      link.outbound.length + link.inbound.length +
        if link.outbound = [] then 0 else (op.reply fs s.archive.store).bytes.length
  | _, _ => 0

theorem remaining_lt (hbounded : Bounded first) (hs : InStep fs first s)
    (hreads : s.Reads fs config s') : s'.remaining fs < s.remaining fs := by
  obtain ⟨a, hread, hstep⟩ := hreads
  cases a with
  | call op => exact hread.elim
  | daemonReads n =>
      obtain ⟨op, parser, outbound, hcall, -, -, hsock, hpos, hle, hpart | hwhole⟩ :=
        daemonStep_cases hs hstep
      · obtain ⟨hmore, -, rfl⟩ := hpart
        have hsome : outbound ≠ [] := List.ne_nil_of_length_pos (by omega)
        simp only [remaining, hcall, hsock, if_neg hmore, if_neg hsome, List.length_drop]
        omega
      · subst hwhole
        have hsome : outbound ≠ [] := List.ne_nil_of_length_pos (by omega)
        simp only [remaining, hcall, hsock, if_neg hsome, List.length_nil, if_pos]
        omega
  | clientReads n =>
      obtain ⟨op, buf, inbound, hcall, -, -, hsock, hpos, hle, hpart | hwhole⟩ :=
        clientStep_cases hbounded hs hstep
      · obtain ⟨hmore, -, rfl⟩ := hpart
        simp only [remaining, hcall, hsock, List.length_nil, List.length_drop, if_pos]
        omega
      · subst hwhole
        simp only [remaining, hcall, hsock, finish, List.length_nil, if_pos]
        omega
  | endOfStream =>
      rw [act, endStep_eq_none hs] at hstep
      cases hstep

/-- Wherever the bytes are cut, there are only so many reads. -/
theorem InStep.acc (hbounded : Bounded first) (hs : InStep fs first s) :
    Acc (fun later s => s.Reads fs config later) s := by
  induction hn : s.remaining fs using Nat.strong_induction_on generalizing s with
  | _ n ih =>
      subst hn
      refine ⟨_, fun later hreads => ?_⟩
      obtain ⟨a, hread, hstep⟩ := hreads
      have hfitting : Fitting s a := by
        cases a with
        | call op => exact hread.elim
        | _ => trivial
      exact ih _ (remaining_lt hbounded hs ⟨a, hread, hstep⟩) (hs.act hbounded hfitting hstep) rfl

/-- As long as a call has not returned, one of the ends can read. -/
theorem InStep.exists_reads (hs : InStep fs first s) (hcall : s.call ≠ .idle) :
    ∃ later, s.Reads fs config later := by
  cases hreading : s.call with
  | idle => exact absurd hreading hcall
  | reading op buf =>
      obtain ⟨-, link, hsock, hexchange⟩ := hs.reading op buf hreading
      generalize s.archive.store = store at hexchange
      cases hexchange with
      | @asked parser outbound hrequest hready hmore =>
          have hn : 0 < 1 ∧ 1 ≤ 8192 ∧ 1 ≤ outbound.length :=
            ⟨by decide, by decide, List.length_pos_iff.mpr hmore⟩
          have hstep : ∃ later, s.daemonStep fs config 1 = some later := by
            rw [Session.daemonStep, hsock]
            dsimp only
            rw [if_pos hn]
            split
            · exact ⟨_, rfl⟩
            · exact ⟨_, rfl⟩
          exact hstep.imp fun later hlater => ⟨.daemonReads 1, trivial, hlater⟩
      | @answered _ inbound hreply hmore =>
          have hn : 0 < 1 ∧ 1 ≤ 4096 ∧ 1 ≤ inbound.length :=
            ⟨by decide, by decide, List.length_pos_iff.mpr hmore⟩
          have hstep : ∃ later, s.clientStep 1 = some later := by
            rw [Session.clientStep, hsock, hreading]
            dsimp only
            rw [if_pos hn]
            split
            · exact ⟨_, rfl⟩
            · exact ⟨_, rfl⟩
            · exact ⟨_, rfl⟩
          exact hstep.imp fun later hlater => ⟨.clientReads 1, trivial, hlater⟩

end Session

end Reame.Arca
