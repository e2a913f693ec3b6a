import Reame.Arca.Server
import Reame.Foundation.Interleaving

/-!
# Many connections, one archive

`ArcaServer` serves every connection on a thread of its own, and all threads dispatch to
one archive, whose mutex `Archive::dispatch` holds for one command.  The state has the
archive, a worker for every connection with the bytes that its client has sent and
received, and the `log`: the commands in the order in which they got hold of the mutex,
with their replies.  No function looks at the log.

Whatever the threads do in whatever order, the log is one sequential execution of the
archive; the commands of a connection are in it in the order in which its client sent
them, and the client receives their replies in that order (`daemon_linearizable`).  The log
only grows, so that a command is behind all those whose replies were received before it
was sent.
-/

namespace Reame.Arca

open Wire Incremental Interleaving

/-- A command that was executed: for which connection, and the reply to it. -/
structure Event where
  connection : ℕ
  command : Command
  reply : Bytes
deriving DecidableEq, Repr

/-- Where the thread of a connection is in `serve`. -/
inductive WorkerPc
  /-- In `read_some`. -/
  | reading
  /-- In the loop over `parser.take()`: the commands that are left, and `out`. -/
  | dispatching (ready : List Command) (out : Bytes)
  /-- In `asio::write`; behind the error reply the connection is closed. -/
  | writing (out : Bytes) (last : Bool)
  | closed
deriving DecidableEq, Repr

/-- A connection: what its client has sent, how much of it the daemon has read, and what the
client has received. -/
structure Worker where
  sent : Bytes := []
  consumed : ℕ := 0
  parser : RespParser := {}
  pc : WorkerPc := .reading
  received : Bytes := []
deriving DecidableEq, Repr

/-- What `read_some` has returned so far. -/
def Worker.fed (w : Worker) : Bytes := w.sent.take w.consumed

/-- `ArcaServer::Impl`, its workers and their clients. -/
structure Daemon where
  archive : Archive
  workers : List Worker := []
  log : List Event := []
  /-- An exception has left a thread. -/
  terminated : Bool := false

/-- What can happen next. -/
inductive DaemonAction
  /-- `accept` returns a socket. -/
  | connect
  | send (i : ℕ) (bytes : Bytes)
  /-- `read_some` returns this many bytes. -/
  | read (i n : ℕ)
  /-- `read_some` fails. -/
  | hangUp (i : ℕ)
  /-- The next command of the loop over `parser.take()`, or its end. -/
  | dispatch (i : ℕ)
  | write (i : ℕ)
  /-- `asio::write` fails, with this many bytes written. -/
  | writeFails (i n : ℕ)
deriving DecidableEq, Repr

/-- `parser.feed`, and what the thread does next; `none` where an exception leaves it. -/
def Worker.feed (w : Worker) (n : ℕ) : Option Worker :=
  let chunk := (w.sent.drop w.consumed).take n
  let w := { w with consumed := w.consumed + n }
  match w.parser.feed chunk with
  | (none, parser) =>
      let (ready, parser) := parser.take
      some { w with parser, pc := .dispatching ready [] }
  | (some (.respError what), parser) =>
      some { w with parser, pc := .writing (respError (ascii "ERR " ++ cString what)) true }
  | (some (.stolFault _), _) => none

namespace Daemon

variable (fs : Cache.FileSystem) (config : Palimpsest.CorpusConfig)

/-- A worker has moved. -/
def moveTo (s : Daemon) (i : ℕ) (w : Worker) : Daemon := { s with workers := s.workers.set i w }

/-- `read_some` returns. -/
def readStep (s : Daemon) (i n : ℕ) (w : Worker) : Option Daemon :=
  if w.pc = .reading ∧ 0 < n ∧ n ≤ 8192 ∧ w.consumed + n ≤ w.sent.length then
    match w.feed n with
    | some w => some (s.moveTo i w)
    | none => some { s with terminated := true }
  else none

/-- One command of the loop, under the mutex of the archive. -/
def dispatchStep (s : Daemon) (i : ℕ) (w : Worker) : Option Daemon :=
  match w.pc with
  | .dispatching (command :: ready) out =>
      let (reply, archive) := s.archive.dispatch fs config command
      some { s.moveTo i { w with pc := .dispatching ready (out ++ reply) } with
        archive, log := s.log ++ [⟨i, command, reply⟩] }
  | .dispatching [] out =>
      some (s.moveTo i { w with pc := if out = [] then .reading else .writing out false })
  | _ => none

/-- `asio::write`. -/
def writeStep (s : Daemon) (i : ℕ) (w : Worker) : Option Daemon :=
  match w.pc with
  | .writing out last =>
      some (s.moveTo i { w with
        pc := if last then .closed else .reading, received := w.received ++ out })
  | _ => none

/-- `asio::write` that fails. -/
def writeFailsStep (s : Daemon) (i n : ℕ) (w : Worker) : Option Daemon :=
  match w.pc with
  | .writing out _ =>
      some (s.moveTo i { w with pc := .closed, received := w.received ++ out.take n })
  | _ => none

/-- One step of one thread or of one client. -/
def act (s : Daemon) (a : DaemonAction) : Option Daemon :=
  if s.terminated then none
  else
    match a with
    | .connect => some { s with workers := s.workers ++ [{}] }
    | .send i bytes =>
        s.workers[i]?.map fun w => s.moveTo i { w with sent := w.sent ++ bytes }
    | .read i n => s.workers[i]?.bind (s.readStep i n)
    | .hangUp i =>
        s.workers[i]?.bind fun w =>
          if w.pc = .reading then some (s.moveTo i { w with pc := .closed }) else none
    | .dispatch i => s.workers[i]?.bind (s.dispatchStep fs config i)
    | .write i => s.workers[i]?.bind (s.writeStep i)
    | .writeFails i n => s.workers[i]?.bind (s.writeFailsStep i n)

end Daemon

/-! ## Steps -/

/-- The steps of a connection in which nothing is executed. -/
inductive Worker.Moves (w : Worker) : Worker → Prop
  | send (bytes : Bytes) : w.Moves { w with sent := w.sent ++ bytes }
  | read {n : ℕ} {w' : Worker} (hpc : w.pc = .reading) (hroom : w.consumed + n ≤ w.sent.length)
      (hfeed : w.feed n = some w') : w.Moves w'
  | hangUp : w.Moves { w with pc := .closed }
  | turn {out : Bytes} (hpc : w.pc = .dispatching [] out) :
      w.Moves { w with pc := if out = [] then .reading else .writing out false }
  | write {out : Bytes} {last : Bool} (hpc : w.pc = .writing out last) :
      w.Moves { w with pc := if last then .closed else .reading, received := w.received ++ out }
  | writeFails {out : Bytes} {last : Bool} (hpc : w.pc = .writing out last) (n : ℕ) :
      w.Moves { w with pc := .closed, received := w.received ++ out.take n }

/-- What a step can do: add a connection, end the process, move one worker, or execute one
command for it. -/
theorem Daemon.act_cases {fs : Cache.FileSystem} {config : Palimpsest.CorpusConfig} {s s' : Daemon}
    {a : DaemonAction} (hstep : s.act fs config a = some s') :
    s' = { s with workers := s.workers ++ [{}] } ∨ s' = { s with terminated := true } ∨
    (∃ i w w', s.workers[i]? = some w ∧ w.Moves w' ∧ s' = s.moveTo i w') ∨
    ∃ i w command ready out, s.workers[i]? = some w ∧
      w.pc = .dispatching (command :: ready) out ∧
      let result := s.archive.dispatch fs config command
      s' = { s.moveTo i { w with pc := .dispatching ready (out ++ result.1) } with
        archive := result.2, log := s.log ++ [⟨i, command, result.1⟩] } := by
  unfold Daemon.act at hstep
  split at hstep
  · cases hstep
  cases a with
  | connect =>
      cases hstep
      exact .inl rfl
  | send i bytes =>
      obtain ⟨w, hi, rfl⟩ := Option.map_eq_some_iff.mp hstep
      exact .inr (.inr (.inl ⟨i, w, _, hi, .send bytes, rfl⟩))
  | read i n =>
      obtain ⟨w, hi, hread⟩ := Option.bind_eq_some_iff.mp hstep
      rw [Daemon.readStep] at hread
      split at hread
      · rename_i hallowed
        cases hfeed : w.feed n with
        | none =>
            rw [hfeed] at hread
            cases hread
            exact .inr (.inl rfl)
        | some w' =>
            rw [hfeed] at hread
            cases hread
            exact .inr (.inr (.inl ⟨i, w, w', hi, .read hallowed.1 hallowed.2.2.2 hfeed, rfl⟩))
      · cases hread
  | hangUp i =>
      obtain ⟨w, hi, hclose⟩ := Option.bind_eq_some_iff.mp hstep
      split at hclose
      · cases hclose
        exact .inr (.inr (.inl ⟨i, w, _, hi, .hangUp, rfl⟩))
      · cases hclose
  | dispatch i =>
      obtain ⟨w, hi, hdispatch⟩ := Option.bind_eq_some_iff.mp hstep
      rw [Daemon.dispatchStep] at hdispatch
      split at hdispatch
      · rename_i command ready out hpc
        cases hdispatch
        exact .inr (.inr (.inr ⟨i, w, command, ready, out, hi, hpc, rfl⟩))
      · rename_i out hpc
        cases hdispatch
        exact .inr (.inr (.inl ⟨i, w, _, hi, .turn hpc, rfl⟩))
      · cases hdispatch
  | write i =>
      obtain ⟨w, hi, hwrite⟩ := Option.bind_eq_some_iff.mp hstep
      rw [Daemon.writeStep] at hwrite
      split at hwrite
      · rename_i out last hpc
        cases hwrite
        exact .inr (.inr (.inl ⟨i, w, _, hi, .write hpc, rfl⟩))
      · cases hwrite
  | writeFails i n =>
      obtain ⟨w, hi, hwrite⟩ := Option.bind_eq_some_iff.mp hstep
      rw [Daemon.writeFailsStep] at hwrite
      split at hwrite
      · rename_i out last hpc
        cases hwrite
        exact .inr (.inr (.inl ⟨i, w, _, hi, .writeFails hpc n, rfl⟩))
      · cases hwrite

/-! ## Sequential executions -/

/-- The replies to commands that are executed one after another. -/
def Archive.transcript (fs : Cache.FileSystem) (config : Palimpsest.CorpusConfig) (archive : Archive) :
    List Command → List Bytes
  | [] => []
  | command :: later =>
      let first := archive.dispatch fs config command
      first.1 :: transcript fs config first.2 later

/-- The events of a connection. -/
def eventsOf (i : ℕ) (log : List Event) : List Event := log.filter (·.connection = i)

/-- The commands of events. -/
def commandsOf (events : List Event) : List Command := events.map Event.command

/-- The replies of events, in a row. -/
def repliesOf (events : List Event) : Bytes := (events.map Event.reply).flatten

variable {fs : Cache.FileSystem} {config : Palimpsest.CorpusConfig}

theorem Archive.transcript_append (archive : Archive) (commands later : List Command) :
    archive.transcript fs config (commands ++ later) = archive.transcript fs config commands ++
      (archive.dispatchAll fs config commands).2.transcript fs config later := by
  induction commands generalizing archive with
  | nil => rfl
  | cons first rest ih => simp [Archive.transcript, Archive.dispatchAll, ih]

theorem length_transcript (archive : Archive) (commands : List Command) :
    (archive.transcript fs config commands).length = commands.length := by
  induction commands generalizing archive with
  | nil => rfl
  | cons first rest ih => rw [Archive.transcript, List.length_cons, ih, List.length_cons]

theorem commandsOf_append (events later : List Event) :
    commandsOf (events ++ later) = commandsOf events ++ commandsOf later := List.map_append

theorem repliesOf_append (events later : List Event) :
    repliesOf (events ++ later) = repliesOf events ++ repliesOf later := by
  rw [repliesOf, List.map_append, List.flatten_append, repliesOf, repliesOf]

theorem eventsOf_append (i : ℕ) (log later : List Event) :
    eventsOf i (log ++ later) = eventsOf i log ++ eventsOf i later := List.filter_append ..

theorem eventsOf_self (event : Event) : eventsOf event.connection [event] = [event] := by
  rw [eventsOf, List.filter_cons_of_pos (by simp), List.filter_nil]

theorem eventsOf_ne {i : ℕ} {event : Event} (hne : event.connection ≠ i) :
    eventsOf i [event] = [] := by
  rw [eventsOf, List.filter_cons_of_neg (by simpa using hne), List.filter_nil]

/-! ## One connection -/

/-- The error reply to malformed bytes. -/
def complaint (bytes : Bytes) : Bytes :=
  match (respParser.drain bytes).error with
  | some (.respError what) => respError (ascii "ERR " ++ cString what)
  | _ => []

/-- Everything that the bytes ask for is executed, or is about to be. -/
structure UpToDate (fed : Bytes) (parser : RespParser) (events : List Event)
    (ready : List Command) : Prop where
  wellFormed : ¬ Malformed fed
  parser : parser = ⟨(respParser.drain fed).rest, []⟩
  commands : commandsOf events ++ ready = commandsIn fed

/-- What a worker has executed and written is what its bytes ask for. -/
inductive Follows (fed received : Bytes) (parser : RespParser) (events : List Event) :
    WorkerPc → Prop
  | reading (hcurrent : UpToDate fed parser events []) (hreplies : received = repliesOf events) :
      Follows fed received parser events .reading
  | dispatching {ready : List Command} {out : Bytes} (hcurrent : UpToDate fed parser events ready)
      (hreplies : received ++ out = repliesOf events) :
      Follows fed received parser events (.dispatching ready out)
  | answering {out : Bytes} (hcurrent : UpToDate fed parser events [])
      (hreplies : received ++ out = repliesOf events) :
      Follows fed received parser events (.writing out false)
  | complaining (hcommands : commandsOf events <+: commandsIn fed)
      (hreplies : received = repliesOf events) :
      Follows fed received parser events (.writing (complaint fed) true)
  | closed (hcommands : commandsOf events <+: commandsIn fed)
      (hreplies : received <+: repliesOf events ++ complaint fed) :
      Follows fed received parser events .closed

theorem UpToDate.isPrefix {fed : Bytes} {parser : RespParser} {events : List Event}
    {ready : List Command} (hcurrent : UpToDate fed parser events ready) :
    commandsOf events <+: commandsIn fed := ⟨ready, hcurrent.commands⟩

theorem prefix_of_append {received out replies complaint : Bytes}
    (heq : received ++ out = replies) : received <+: replies ++ complaint :=
  ⟨out ++ complaint, by rw [← List.append_assoc, heq]⟩

/-- In every state what was received are replies, and behind them perhaps the error. -/
theorem Follows.bounds {fed received : Bytes} {parser : RespParser} {events : List Event}
    {pc : WorkerPc} (hfollows : Follows fed received parser events pc) :
    commandsOf events <+: commandsIn fed ∧ received <+: repliesOf events ++ complaint fed := by
  cases hfollows with
  | reading hcurrent hreplies => exact ⟨hcurrent.isPrefix, hreplies ▸ List.prefix_append ..⟩
  | dispatching hcurrent hreplies => exact ⟨hcurrent.isPrefix, prefix_of_append hreplies⟩
  | answering hcurrent hreplies => exact ⟨hcurrent.isPrefix, prefix_of_append hreplies⟩
  | complaining hcommands hreplies => exact ⟨hcommands, hreplies ▸ List.prefix_append ..⟩
  | closed hcommands hreplies => exact ⟨hcommands, hreplies⟩

/-- What is read goes on where it stopped. -/
theorem UpToDate.drain {fed : Bytes} {parser : RespParser} {events : List Event}
    (hcurrent : UpToDate fed parser events []) (chunk : Bytes) :
    (respParser.drain (fed ++ chunk)).error = (respParser.drain (parser.buf ++ chunk)).error ∧
      (respParser.drain (fed ++ chunk)).rest = (respParser.drain (parser.buf ++ chunk)).rest ∧
      commandsIn (fed ++ chunk) = commandsOf events ++ commandsIn (parser.buf ++ chunk) := by
  have happend := respParser.drain_append (not_not.mp hcurrent.wellFormed) chunk
  have hcommands := commandsIn_append hcurrent.wellFormed chunk
  rw [← hcurrent.commands, List.append_nil] at hcommands
  rw [hcurrent.parser, happend]
  exact ⟨rfl, rfl, hcommands⟩

namespace Worker

variable {w w' : Worker} {events : List Event}

/-- What a worker has executed and written is what its bytes ask for. -/
structure InStep (w : Worker) (events : List Event) : Prop where
  consumed : w.consumed ≤ w.sent.length
  follows : Follows w.fed w.received w.parser events w.pc

theorem inStep_new : InStep {} [] :=
  ⟨le_rfl, .reading ⟨not_not.mpr rfl, rfl, rfl⟩ rfl⟩

theorem InStep.send (hw : InStep w events) (bytes : Bytes) :
    InStep { w with sent := w.sent ++ bytes } events := by
  have hfed : Worker.fed { w with sent := w.sent ++ bytes } = w.fed :=
    List.take_append_of_le_length hw.consumed
  refine ⟨?_, ?_⟩
  · exact hw.consumed.trans (by rw [List.length_append]; omega)
  · rw [hfed]
    exact hw.follows

/-- A read gets commands to dispatch, or an error to report. -/
theorem InStep.feed (hw : InStep w events) (hpc : w.pc = .reading) {n : ℕ}
    (hroom : w.consumed + n ≤ w.sent.length) (hfeed : w.feed n = some w') : InStep w' events := by
  have hfollows := hw.follows
  rw [hpc] at hfollows
  cases hfollows with
  | reading hcurrent hreplies =>
      have hfed : ∀ parser pc received, Worker.fed ⟨w.sent, w.consumed + n, parser, pc, received⟩ =
          w.fed ++ (w.sent.drop w.consumed).take n := fun _ _ _ => List.take_add
      rw [Worker.feed] at hfeed
      generalize hchunk : (w.sent.drop w.consumed).take n = chunk at hfeed hfed
      obtain ⟨herror, hrest, hcommands⟩ := hcurrent.drain chunk
      have hready : w.parser.ready = [] := by rw [hcurrent.parser]
      simp only [RespParser.feed, hready, List.nil_append] at hfeed
      cases hfault : (respParser.drain (w.parser.buf ++ chunk)).error with
      | none =>
          simp only [hfault, RespParser.take, Option.some.injEq] at hfeed
          subst hfeed
          refine ⟨hroom, ?_⟩
          rw [hfed]
          refine .dispatching ⟨?_, ?_, hcommands.symm⟩ ?_
          · rw [Malformed, herror, hfault]
            exact not_not.mpr rfl
          · rw [hrest]
          · rw [List.append_nil]
            exact hreplies
      | some fault =>
          simp only [hfault] at hfeed
          cases fault with
          | stolFault fault => cases hfeed
          | respError what =>
              simp only [Option.some.injEq] at hfeed
              subst hfeed
              refine ⟨hroom, ?_⟩
              rw [hfed]
              have hcomplaint : respError (ascii "ERR " ++ cString what) =
                  complaint (w.fed ++ chunk) := by
                rw [complaint, herror, hfault]
              dsimp only
              rw [hcomplaint]
              exact .complaining ⟨_, hcommands.symm⟩ hreplies

theorem InStep.moves (hw : InStep w events) (hmoves : w.Moves w') : InStep w' events := by
  have hfollows := hw.follows
  cases hmoves with
  | send bytes => exact hw.send bytes
  | read hpc hroom hfeed => exact hw.feed hpc hroom hfeed
  | hangUp =>
      obtain ⟨hcommands, hreceived⟩ := hfollows.bounds
      exact ⟨hw.consumed, .closed hcommands hreceived⟩
  | @turn out hpc =>
      rw [hpc] at hfollows
      cases hfollows with
      | dispatching hcurrent hreplies =>
          refine ⟨hw.consumed, ?_⟩
          dsimp only
          split
          · rename_i hempty
            rw [hempty, List.append_nil] at hreplies
            exact .reading hcurrent hreplies
          · exact .answering hcurrent hreplies
  | write hpc =>
      rw [hpc] at hfollows
      refine ⟨hw.consumed, ?_⟩
      cases hfollows with
      | answering hcurrent hreplies => exact .reading hcurrent hreplies
      | complaining hcommands hreplies =>
          refine .closed hcommands ?_
          dsimp only
          rw [hreplies]
          rfl
  | @writeFails out last hpc n =>
      rw [hpc] at hfollows
      refine ⟨hw.consumed, ?_⟩
      cases hfollows with
      | answering hcurrent hreplies =>
          refine .closed hcurrent.isPrefix ?_
          have hpart : (w.received ++ out.take n) ++ out.drop n = repliesOf events := by
            rw [List.append_assoc, List.take_append_drop, hreplies]
          exact prefix_of_append hpart
      | complaining hcommands hreplies =>
          refine .closed hcommands ?_
          dsimp only
          rw [hreplies]
          exact (List.prefix_append_right_inj _).mpr (List.take_prefix ..)

end Worker

/-! ## All connections -/

/-- The log is a run of the archive, and every worker has its part in it. -/
structure Linear (fs : Cache.FileSystem) (config : Palimpsest.CorpusConfig) (first : Archive)
    (s : Daemon) : Prop where
  archive : s.archive = (first.dispatchAll fs config (commandsOf s.log)).2
  replies : s.log.map Event.reply = first.transcript fs config (commandsOf s.log)
  known : ∀ event ∈ s.log, event.connection < s.workers.length
  workers : ∀ (i : ℕ) (w : Worker), s.workers[i]? = some w → w.InStep (eventsOf i s.log)

variable {first : Archive} {s s' : Daemon} {i : ℕ} {w w' : Worker}

theorem linear_initial (archive : Archive) : Linear fs config archive { archive } :=
  ⟨rfl, rfl, nofun, nofun⟩

/-- A worker moves, and no command is executed. -/
theorem Linear.moveTo (hs : Linear fs config first s) (hw : w.InStep (eventsOf i s.log)) :
    Linear fs config first (s.moveTo i w) := by
  refine ⟨hs.archive, hs.replies, fun event hevent => ?_, fun j other hother => ?_⟩
  · rw [Daemon.moveTo, List.length_set]
    exact hs.known event hevent
  · rw [Daemon.moveTo, List.getElem?_set] at hother
    split at hother
    · rename_i hij
      split at hother
      · cases hother
        exact hij ▸ hw
      · cases hother
    · exact hs.workers j other hother

theorem Linear.connect (hs : Linear fs config first s) :
    Linear fs config first { s with workers := s.workers ++ [{}] } := by
  refine ⟨hs.archive, hs.replies, fun event hevent => ?_, fun j other hother => ?_⟩
  · rw [List.length_append]
    exact (hs.known event hevent).trans_le (Nat.le_add_right ..)
  · dsimp only at hother
    rw [List.getElem?_append] at hother
    split at hother
    · exact hs.workers j other hother
    · rename_i hnew
      obtain rfl : other = {} := by
        have hmem := List.mem_of_getElem? hother
        exact List.mem_singleton.mp hmem
      -- Nobody has executed anything for a connection that was not there.
      have hnone : eventsOf j s.log = [] := by
        refine List.filter_eq_nil_iff.mpr fun event hevent => ?_
        have hlt := hs.known event hevent
        simp only [decide_eq_true_eq]
        omega
      rw [hnone]
      exact Worker.inStep_new

/-- A command is executed under the mutex. -/
theorem Linear.execute (hs : Linear fs config first s) (hi : s.workers[i]? = some w)
    {command : Command} {ready : List Command} {out : Bytes}
    (hpc : w.pc = .dispatching (command :: ready) out) :
    let result := s.archive.dispatch fs config command
    Linear fs config first { s.moveTo i { w with pc := .dispatching ready (out ++ result.1) } with
      archive := result.2, log := s.log ++ [⟨i, command, result.1⟩] } := by
  obtain ⟨hlt, -⟩ := List.getElem?_eq_some_iff.mp hi
  have hcommands : commandsOf (s.log ++ [⟨i, command, (s.archive.dispatch fs config command).1⟩]) =
      commandsOf s.log ++ [command] := commandsOf_append ..
  refine ⟨?_, ?_, fun event hevent => ?_, fun j other hother => ?_⟩
  · dsimp only
    rw [hcommands, Archive.dispatchAll_append, hs.archive]
    rfl
  · dsimp only
    rw [hcommands, Archive.transcript_append, List.map_append, hs.replies, ← hs.archive]
    rfl
  · dsimp only [Daemon.moveTo]
    rw [List.length_set]
    rcases List.mem_append.mp hevent with hold | hnew
    · exact hs.known event hold
    · rw [List.mem_singleton.mp hnew]
      exact hlt
  · dsimp only [Daemon.moveTo] at hother ⊢
    rw [List.getElem?_set] at hother
    rw [eventsOf_append]
    split at hother
    · rename_i hij
      subst hij
      rw [Option.some.injEq] at hother
      subst hother
      have hw := hs.workers i w hi
      have hfollows := hw.follows
      rw [hpc] at hfollows
      refine ⟨hw.consumed, ?_⟩
      cases hfollows with
      | dispatching hcurrent hreplies =>
          rw [eventsOf_self ⟨i, command, _⟩]
          refine .dispatching ⟨hcurrent.wellFormed, hcurrent.parser, ?_⟩ ?_
          · rw [commandsOf_append, List.append_assoc]
            exact hcurrent.commands
          · dsimp only
            rw [repliesOf_append, ← hreplies, List.append_assoc, repliesOf]
            simp
    · rename_i hij
      rw [eventsOf_ne hij, List.append_nil]
      exact hs.workers j other hother

theorem Linear.act (hs : Linear fs config first s) {a : DaemonAction}
    (hstep : s.act fs config a = some s') : Linear fs config first s' := by
  obtain rfl | rfl | ⟨i, w, w', hi, hmoves, rfl⟩ | ⟨i, w, command, ready, out, hi, hpc, rfl⟩ :=
    Daemon.act_cases hstep
  · exact hs.connect
  · exact ⟨hs.archive, hs.replies, hs.known, hs.workers⟩
  · exact hs.moveTo ((hs.workers i w hi).moves hmoves)
  · exact hs.execute hi hpc

/-- The log only grows. -/
theorem log_prefix_of_act {a : DaemonAction} (hstep : s.act fs config a = some s') :
    s.log <+: s'.log := by
  obtain rfl | rfl | ⟨i, w, w', -, -, rfl⟩ | ⟨i, w, command, ready, out, -, -, rfl⟩ :=
    Daemon.act_cases hstep
  · exact List.prefix_rfl
  · exact List.prefix_rfl
  · exact List.prefix_rfl
  · exact List.prefix_append ..

theorem linear_of_reaches (hreach : Reaches (Daemon.act fs config) Free { archive := first } s) :
    Linear fs config first s :=
  hreach.invariant (Linear fs config first) (linear_initial first)
    fun _ _ _ hs _ hstep => hs.act hstep

/-- All connections together are one execution of the archive.  Its order is that of the commands
on every connection, every client receives the replies to its commands in their order, and all
of them when the daemon waits for more from it; later steps only add to it. -/
theorem daemon_linearizable (fs : Cache.FileSystem) (config : Palimpsest.CorpusConfig)
    (archive : Archive) {s : Daemon}
    (hreach : Reaches (Daemon.act fs config) Free { archive } s) :
    s.archive = (archive.dispatchAll fs config (commandsOf s.log)).2 ∧
      s.log.map Event.reply = archive.transcript fs config (commandsOf s.log) ∧
      (∀ (i : ℕ) (w : Worker), s.workers[i]? = some w →
        let mine := eventsOf i s.log
        commandsOf mine <+: commandsIn w.sent ∧
          w.received <+: repliesOf mine ++ complaint w.fed ∧
          (w.pc = .reading → ¬ Malformed w.fed ∧ commandsOf mine = commandsIn w.fed ∧
            w.received = repliesOf mine)) ∧
      ∀ s', Reaches (Daemon.act fs config) Free s s' → s.log <+: s'.log := by
  have hs := linear_of_reaches hreach
  refine ⟨hs.archive, hs.replies, fun i w hi => ?_, fun s' hlater => ?_⟩
  · have hw := hs.workers i w hi
    obtain ⟨hcommands, hreceived⟩ := hw.follows.bounds
    have hsent : commandsIn w.fed <+: commandsIn w.sent := by
      have hprefix := commandsIn_prefix w.fed (w.sent.drop w.consumed)
      rwa [Worker.fed, List.take_append_drop] at hprefix
    refine ⟨hcommands.trans hsent, hreceived, fun hpc => ?_⟩
    have hfollows := hw.follows
    rw [hpc] at hfollows
    cases hfollows with
    | reading hcurrent hreplies =>
        exact ⟨hcurrent.wellFormed, by rw [← hcurrent.commands, List.append_nil], hreplies⟩
  · exact hlater.invariant (fun later => s.log <+: later.log) List.prefix_rfl
      fun _ _ _ hprefix _ hstep => hprefix.trans (log_prefix_of_act hstep)

/-- Two clients: the one asks for what the other has just stored. -/
theorem daemon_linearizable_two :
    let archive : Archive := { store := Cache.DiskStore.reopen .faultless 0 {} }
    ∃ s, Reaches (Daemon.act .faultless {}) Free { archive } s ∧
      s.log.map Event.reply = [respSimple (ascii "OK"), respBulk (ascii "v")] ∧
      s.log.map Event.reply = archive.transcript .faultless {} (commandsOf s.log) := by
  intro archive
  obtain ⟨s, hreach, hlog⟩ := exists_reaches (Daemon.act .faultless {}) Free { archive }
    [.connect, .connect, .send 1 (ascii "GET k\r\n"), .send 0 (ascii "SET k v\r\n"), .read 0 4,
      .dispatch 0, .read 0 5, .read 1 7, .dispatch 0, .dispatch 1, .dispatch 0, .write 0]
    (fun s => s.log.map Event.reply = [respSimple (ascii "OK"), respBulk (ascii "v")])
    (by decide +kernel)
  exact ⟨s, hreach, by simpa using hlog, (daemon_linearizable .faultless {} archive hreach).2.1⟩

end Reame.Arca
