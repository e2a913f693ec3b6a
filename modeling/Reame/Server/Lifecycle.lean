import Reame.Foundation.Interleaving
import Mathlib.Algebra.BigOperators.Group.List.Basic
import Mathlib.Tactic

/-!
# Stopping a server

`ArcaServer` and `HttpServer` accept connections on one thread and serve each of them on a
detached thread that counts itself in `active_connections`.  `stop` clears `running`, joins
the accept thread and waits for the others: the daemon shuts down every socket in `conns`
and waits without a limit, the HTTP server polls the counter up to 600 times.  What `stop`
does one after the other is a program here (`arcaStop`, `httpStop`), and the model is about
any program.

In every interleaving the counter counts the threads that are there, and one call of `stop`
at most gets past the exchange of `running` (`Sane`).  So nothing is left of the daemon when
its `stop` returns (`stop_leaves_nobody`).

What the threads do with the bytes they read is left out: a read may be the last one.  A client
sends and hangs up from the moment it has connected, before its connection is accepted.
-/

namespace Reame.Server

open Interleaving

/-- Where the thread of a connection is. -/
inductive ThreadPc
  /-- Counted; its socket is not in `conns` yet. -/
  | spawned
  | serving
  /-- Its socket is out of `conns`; `--active_connections` is to come. -/
  | leaving
  /-- Behind `--active_connections`; the socket it was made with is still to be destroyed. -/
  | gone
deriving DecidableEq, Repr

/-- A connection as its client has left it: the bytes it has sent and nobody has read, and whether
it has closed the connection. -/
structure Client where
  unread : ℕ := 0
  hungUp : Bool := false
deriving DecidableEq, Repr

/-- The thread of a connection, and whether `stop` has shut down its socket. -/
structure Thread extends Client where
  pc : ThreadPc := .spawned
  shut : Bool := false
deriving DecidableEq, Repr

/-- Where `accept_loop` is. -/
inductive AcceptPc
  | atLoop
  | inBody
  /-- Behind `++active_connections`, with the connection that was accepted. -/
  | counted (client : Client)
  | finished
deriving DecidableEq, Repr

/-- Where a connection is: not accepted yet, accepted, or with its thread. -/
inductive Place
  | pending (k : ℕ)
  | accepted
  | thread (i : ℕ)
deriving DecidableEq, Repr

/-- What `stop` does, one after the other. -/
inductive StopAction
  /-- `acceptor->close`. -/
  | close
  /-- `accept_thread.join`. -/
  | join
  /-- Shut down every socket in `conns`. -/
  | shutdown
  /-- Poll `active_connections` until it is zero, or as often as that. -/
  | drain (polls : Option ℕ)
deriving DecidableEq, Repr

/-- Where a thread that may call `stop` is. -/
inductive StopPc
  | outside
  | stopping (todo : List StopAction)
  /-- Back; it may have found the server stopped by another call. -/
  | returned (won : Bool)
deriving DecidableEq, Repr

/-- A server that was started, and its clients. -/
structure Lifetime where
  running : Bool := true
  acceptorOpen : Bool := true
  /-- Connections that are not accepted yet. -/
  backlog : List Client := []
  accept : AcceptPc := .atLoop
  /-- `active_connections`. -/
  active : ℕ := 0
  threads : List Thread := []
  callers : List StopPc
deriving DecidableEq, Repr

/-- `ArcaServer::stop` behind the exchange of `running`. -/
def arcaStop : List StopAction := [.join, .close, .shutdown, .drain none]

/-- `HttpServer::stop` behind the exchange of `running`. -/
def httpStop : List StopAction := [.close, .join, .drain (some 600)]

/-- The steps of the thread of a connection. -/
inductive ThreadAction
  | register
  /-- `read_some` returns this many bytes, and the thread leaves its loop or goes on. -/
  | read (n : ℕ) (leaves : Bool)
  /-- `read_some` fails. -/
  | readFails
  | exit
deriving DecidableEq, Repr

/-- What can happen next. -/
inductive LifeAction
  | connect
  | send (place : Place) (n : ℕ)
  | hangUp (place : Place)
  | callStop (c : ℕ)
  | accept
  | thread (i : ℕ) (a : ThreadAction)
  | stop (c : ℕ)
deriving DecidableEq, Repr

/-- One step of the thread of a connection. -/
def Thread.step (t : Thread) : ThreadAction → Option Thread
  | .register => if t.pc = .spawned then some { t with pc := .serving } else none
  | .read n leaves =>
      if t.pc = .serving ∧ 0 < n ∧ n ≤ t.unread then
        some { t with unread := t.unread - n, pc := if leaves then .leaving else .serving }
      else none
  | .readFails =>
      if t.pc = .serving ∧ (t.shut = true ∨ t.hungUp = true) then some { t with pc := .leaving }
      else none
  | .exit => if t.pc = .leaving then some { t with pc := .gone } else none

/-- Bytes go to a socket that neither side has closed. -/
def Client.send (n : ℕ) (shut : Bool) (client : Client) : Option Client :=
  if shut || client.hungUp then none else some { client with unread := client.unread + n }

def Client.hangUp (client : Client) : Option Client := some { client with hungUp := true }

/-- What `shutdown` does to a socket. -/
def Thread.shutdown (t : Thread) : Thread :=
  if t.pc = .serving then { t with shut := true } else t

namespace Lifetime

/-- A server that was started, with as many threads that may stop it. -/
def started (callers : ℕ) : Lifetime := { callers := List.replicate callers .outside }

/-- `accept_loop`. -/
def acceptStep (s : Lifetime) : Option Lifetime :=
  match s.accept with
  | .atLoop => some { s with accept := if s.running then .inBody else .finished }
  | .inBody =>
      match s.backlog with
      | [] => some { s with accept := .atLoop }
      | client :: later =>
          if s.acceptorOpen then
            some { s with backlog := later, active := s.active + 1, accept := .counted client }
          else some { s with accept := .atLoop }
  | .counted client =>
      some { s with threads := s.threads ++ [{ toClient := client }], accept := .atLoop }
  | .finished => none

/-- The thread of a connection. -/
def threadStep (s : Lifetime) (i : ℕ) (a : ThreadAction) : Option Lifetime :=
  s.threads[i]?.bind fun t => (t.step a).map fun t => { s with
    threads := s.threads.set i t
    active := if a = .exit then s.active - 1 else s.active }

/-- A caller moves on. -/
def moveTo (s : Lifetime) (c : ℕ) (pc : StopPc) : Lifetime :=
  { s with callers := s.callers.set c pc }

/-- The next action of a call of `stop`. -/
def stopStep (s : Lifetime) (c : ℕ) : Option Lifetime :=
  match s.callers[c]? with
  | some (.stopping []) => some (s.moveTo c (.returned true))
  | some (.stopping (.close :: todo)) =>
      some { s.moveTo c (.stopping todo) with acceptorOpen := false }
  | some (.stopping (.join :: todo)) =>
      if s.accept = .finished then some (s.moveTo c (.stopping todo)) else none
  | some (.stopping (.shutdown :: todo)) =>
      some { s.moveTo c (.stopping todo) with threads := s.threads.map Thread.shutdown }
  | some (.stopping (.drain polls :: todo)) =>
      if s.active = 0 then some (s.moveTo c (.stopping todo))
      else
        match polls with
        | none => none
        | some 0 => some (s.moveTo c (.stopping todo))
        | some (k + 1) => some (s.moveTo c (.stopping (.drain (some k) :: todo)))
  | _ => none

/-- The beginning of `stop`: only one call finds the server running. -/
def callStopStep (program : List StopAction) (s : Lifetime) (c : ℕ) : Option Lifetime :=
  match s.callers[c]? with
  | some .outside =>
      if s.running then some { s.moveTo c (.stopping program) with running := false }
      else some (s.moveTo c (.returned false))
  | _ => none

/-- A client does something with its connection; what it may do depends on whether the socket was
shut down. -/
def clientStep (s : Lifetime) (change : Bool → Client → Option Client) : Place → Option Lifetime
  | .pending k =>
      s.backlog[k]?.bind fun client => (change false client).map fun client =>
        { s with backlog := s.backlog.set k client }
  | .accepted =>
      match s.accept with
      | .counted client =>
          (change false client).map fun client => { s with accept := .counted client }
      | _ => none
  | .thread i =>
      s.threads[i]?.bind fun t => (change t.shut t.toClient).map fun client =>
        { s with threads := s.threads.set i { t with toClient := client } }

/-- One step of one thread or of one client. -/
def act (program : List StopAction) (s : Lifetime) : LifeAction → Option Lifetime
  | .connect => some { s with backlog := s.backlog ++ [{}] }
  | .send place n => s.clientStep (Client.send n) place
  | .hangUp place => s.clientStep (fun _ => Client.hangUp) place
  | .callStop c => callStopStep program s c
  | .accept => s.acceptStep
  | .thread i a => s.threadStep i a
  | .stop c => s.stopStep c

end Lifetime

/-- The steps of the server's own threads and of a call of `stop`. -/
def LifeAction.Own : LifeAction → Prop
  | .accept | .thread _ _ | .stop _ => True
  | .connect | .send _ _ | .hangUp _ | .callStop _ => False

/-- What a call that has found the server running has still to do. -/
def StopPc.todo : StopPc → Option (List StopAction)
  | .outside | .returned false => none
  | .stopping todo => some todo
  | .returned true => some []

instance : DecidablePred LifeAction.Own
  | .accept | .thread _ _ | .stop _ => inferInstanceAs (Decidable True)
  | .connect | .send _ _ | .hangUp _ | .callStop _ => inferInstanceAs (Decidable False)

/-- A thread that is still counted. -/
def Thread.present (t : Thread) : ℕ := if t.pc = .gone then 0 else 1

/-- A connection that is counted and has no thread yet. -/
def AcceptPc.present : AcceptPc → ℕ
  | .counted _ => 1
  | _ => 0

/-- Nothing waits for all threads before the accept thread is joined. -/
def Ordered : List StopAction → Prop
  | [] => True
  | .drain none :: todo => .join ∉ todo ∧ Ordered todo
  | _ :: todo => Ordered todo

/-- What the next action of a call of `stop` does: where the call gets to, and the state. -/
inductive Lifetime.Stopping (s : Lifetime) (c : ℕ) : List StopAction → StopPc → Lifetime → Prop
  | back : Stopping s c [] (.returned true) (s.moveTo c (.returned true))
  | close (todo : List StopAction) : Stopping s c (.close :: todo) (.stopping todo)
      { s.moveTo c (.stopping todo) with acceptorOpen := false }
  | join (todo : List StopAction) (hfinished : s.accept = .finished) :
      Stopping s c (.join :: todo) (.stopping todo) (s.moveTo c (.stopping todo))
  | shutdown (todo : List StopAction) : Stopping s c (.shutdown :: todo) (.stopping todo)
      { s.moveTo c (.stopping todo) with threads := s.threads.map Thread.shutdown }
  | drained (polls : Option ℕ) (todo : List StopAction) (hnone : s.active = 0) :
      Stopping s c (.drain polls :: todo) (.stopping todo) (s.moveTo c (.stopping todo))
  | tired (todo : List StopAction) :
      Stopping s c (.drain (some 0) :: todo) (.stopping todo) (s.moveTo c (.stopping todo))
  | poll (k : ℕ) (todo : List StopAction) :
      Stopping s c (.drain (some (k + 1)) :: todo) (.stopping (.drain (some k) :: todo))
        (s.moveTo c (.stopping (.drain (some k) :: todo)))

theorem Lifetime.stopping_of_stopStep {s s' : Lifetime} {c : ℕ} (hstep : s.stopStep c = some s') :
    ∃ todo pc, s.callers[c]? = some (.stopping todo) ∧ s.Stopping c todo pc s' := by
  rw [stopStep] at hstep
  split at hstep
  · rename_i hc
    cases hstep
    exact ⟨_, _, hc, .back⟩
  · rename_i todo hc
    cases hstep
    exact ⟨_, _, hc, .close todo⟩
  · rename_i todo hc
    split at hstep
    · rename_i hfinished
      cases hstep
      exact ⟨_, _, hc, .join todo hfinished⟩
    · cases hstep
  · rename_i todo hc
    cases hstep
    exact ⟨_, _, hc, .shutdown todo⟩
  · rename_i polls todo hc
    split at hstep
    · rename_i hnone
      cases hstep
      exact ⟨_, _, hc, .drained polls todo hnone⟩
    · cases polls with
      | none => cases hstep
      | some k =>
          cases k with
          | zero =>
              cases hstep
              exact ⟨_, _, hc, .tired todo⟩
          | succ k =>
              cases hstep
              exact ⟨_, _, hc, .poll k todo⟩
  · cases hstep

theorem Lifetime.callStopStep_cases {program : List StopAction} {s s' : Lifetime} {c : ℕ}
    (hstep : Lifetime.callStopStep program s c = some s') : s.callers[c]? = some .outside ∧
      (s.running = true ∧ s' = { s.moveTo c (.stopping program) with running := false } ∨
        s.running = false ∧ s' = s.moveTo c (.returned false)) := by
  rw [callStopStep] at hstep
  split at hstep
  · rename_i hc
    split at hstep
    · rename_i hrunning
      exact ⟨hc, .inl ⟨hrunning, (Option.some.inj hstep).symm⟩⟩
    · rename_i hstopped
      exact ⟨hc, .inr ⟨Bool.eq_false_iff.mpr hstopped, (Option.some.inj hstep).symm⟩⟩
  · cases hstep

theorem Lifetime.acceptStep_cases {s s' : Lifetime} (hstep : s.acceptStep = some s') :
    s.accept = .atLoop ∧ s' = { s with accept := if s.running then .inBody else .finished } ∨
    (∃ client later, s.accept = .inBody ∧ s.acceptorOpen = true ∧ s.backlog = client :: later ∧
      s' = { s with backlog := later, active := s.active + 1, accept := .counted client }) ∨
    (s.accept = .inBody ∧ (s.acceptorOpen = false ∨ s.backlog = []) ∧
      s' = { s with accept := .atLoop }) ∨
    ∃ client, s.accept = .counted client ∧
      s' = { s with threads := s.threads ++ [{ toClient := client }], accept := .atLoop } := by
  rw [acceptStep] at hstep
  split at hstep
  · rename_i haccept
    exact .inl ⟨haccept, (Option.some.inj hstep).symm⟩
  · rename_i haccept
    split at hstep
    · rename_i hnone
      exact .inr (.inr (.inl ⟨haccept, .inr hnone, (Option.some.inj hstep).symm⟩))
    · rename_i client later hpending
      split at hstep
      · rename_i hopen
        exact .inr (.inl ⟨client, later, haccept, hopen, hpending, (Option.some.inj hstep).symm⟩)
      · rename_i hclosed
        exact .inr (.inr (.inl ⟨haccept, .inl (Bool.eq_false_iff.mpr hclosed),
          (Option.some.inj hstep).symm⟩))
  · rename_i client haccept
    exact .inr (.inr (.inr ⟨client, haccept, (Option.some.inj hstep).symm⟩))
  · cases hstep

theorem Lifetime.threadStep_cases {s s' : Lifetime} {i : ℕ} {a : ThreadAction}
    (hstep : s.threadStep i a = some s') : ∃ t t', s.threads[i]? = some t ∧ t.step a = some t' ∧
      s' = { s with
        threads := s.threads.set i t'
        active := if a = .exit then s.active - 1 else s.active } := by
  obtain ⟨t, hi, hstep⟩ := Option.bind_eq_some_iff.mp hstep
  obtain ⟨t', ht', hs'⟩ := Option.map_eq_some_iff.mp hstep
  exact ⟨t, t', hi, ht', hs'.symm⟩

/-- What a client changes: a connection that is not accepted, the one that was accepted last, or
the socket of a thread. -/
theorem Lifetime.clientStep_cases {s s' : Lifetime} {change : Bool → Client → Option Client}
    {place : Place} (hstep : s.clientStep change place = some s') :
    (∃ k client, s' = { s with backlog := s.backlog.set k client }) ∨
    (∃ client client', s.accept = .counted client ∧ change false client = some client' ∧
      s' = { s with accept := .counted client' }) ∨
    ∃ i t client, s.threads[i]? = some t ∧ change t.shut t.toClient = some client ∧
      s' = { s with threads := s.threads.set i { t with toClient := client } } := by
  cases place with
  | pending k =>
      obtain ⟨client, -, hstep⟩ := Option.bind_eq_some_iff.mp hstep
      obtain ⟨client', -, hs'⟩ := Option.map_eq_some_iff.mp hstep
      exact .inl ⟨k, client', hs'.symm⟩
  | accepted =>
      rw [clientStep] at hstep
      split at hstep
      · rename_i client haccept
        obtain ⟨client', hchange, hs'⟩ := Option.map_eq_some_iff.mp hstep
        exact .inr (.inl ⟨client, client', haccept, hchange, hs'.symm⟩)
      · cases hstep
  | thread i =>
      obtain ⟨t, hi, hstep⟩ := Option.bind_eq_some_iff.mp hstep
      obtain ⟨client, hchange, hs'⟩ := Option.map_eq_some_iff.mp hstep
      exact .inr (.inr ⟨i, t, client, hi, hchange, hs'.symm⟩)

theorem ordered_arcaStop : Ordered arcaStop := by simp [arcaStop, Ordered]

theorem ordered_httpStop : Ordered httpStop := by simp [httpStop, Ordered]

theorem Ordered.tail {a : StopAction} {todo : List StopAction} (hordered : Ordered (a :: todo)) :
    Ordered todo := by
  cases a with
  | drain polls =>
      cases polls with
      | none => exact hordered.2
      | some k => exact hordered
  | _ => exact hordered

/-! ## Sums over threads -/

theorem sum_map_set {α : Type*} (weight : α → ℕ) {l : List α} {i : ℕ} {a : α} (hi : l[i]? = some a)
    (b : α) : ((l.set i b).map weight).sum + weight a = (l.map weight).sum + weight b := by
  induction l generalizing i with
  | nil => cases hi
  | cons first rest ih =>
      cases i with
      | zero =>
          cases hi
          simp only [List.set_cons_zero, List.map_cons, List.sum_cons]
          omega
      | succ i =>
          have hrest := ih hi
          simp only [List.set_cons_succ, List.map_cons, List.sum_cons]
          omega

theorem present_step {t t' : Thread} {a : ThreadAction} (hstep : t.step a = some t') :
    t'.present + (if a = .exit then 1 else 0) = t.present := by
  cases a with
  | register =>
      rw [Thread.step] at hstep
      split at hstep
      · rename_i hpc
        cases hstep
        simp [Thread.present, hpc]
      · cases hstep
  | read n leaves =>
      rw [Thread.step] at hstep
      split at hstep
      · rename_i hpc
        cases hstep
        cases leaves <;> simp [Thread.present, hpc.1]
      · cases hstep
  | readFails =>
      rw [Thread.step] at hstep
      split at hstep
      · rename_i hpc
        cases hstep
        simp [Thread.present, hpc.1]
      · cases hstep
  | exit =>
      rw [Thread.step] at hstep
      split at hstep
      · rename_i hpc
        cases hstep
        simp [Thread.present, hpc]
      · cases hstep

@[simp] theorem present_shutdown (t : Thread) : t.shutdown.present = t.present := by
  rw [Thread.shutdown]
  split
  · rfl
  · rfl

theorem sum_map_shutdown {weight : Thread → ℕ}
    (hweight : ∀ t : Thread, weight t.shutdown = weight t) (threads : List Thread) :
    ((threads.map Thread.shutdown).map weight).sum = (threads.map weight).sum := by
  rw [List.map_map]
  exact congrArg List.sum (List.map_congr_left fun t _ => hweight t)

/-! ## What holds in every interleaving -/

namespace Lifetime

/-- A call of `stop` has found the server running, and that is left for it. -/
def Stops (s : Lifetime) (c : ℕ) (todo : List StopAction) : Prop :=
  s.callers[c]?.bind StopPc.todo = some todo

/-- What a call of `stop` has behind it: the accept thread if it has joined it, and all threads
if it has waited for them. -/
structure Progress (program todo : List StopAction) (s : Lifetime) : Prop where
  ordered : Ordered todo
  waits : .drain none ∈ todo → .drain none ∈ program
  joined : .join ∈ todo ∨ s.accept = .finished
  waited : .drain none ∈ program → .drain none ∈ todo ∨ .join ∉ todo ∧ s.active = 0

/-- The counter is right, and only one call of `stop` is under way or has gone through. -/
structure Sane (program : List StopAction) (s : Lifetime) : Prop where
  counted : s.active = (s.threads.map Thread.present).sum + s.accept.present
  running : s.running = true → ∀ c todo, ¬ s.Stops c todo
  single : ∀ c c' todo todo', s.Stops c todo → s.Stops c' todo' → c = c'
  progress : ∀ c todo, s.Stops c todo → Progress program todo s

variable {program : List StopAction} {s s' : Lifetime}

theorem sane_started (program : List StopAction) (callers : ℕ) :
    Sane program (started callers) := by
  have houtside : ∀ c todo, ¬ (started callers).Stops c todo := fun c todo hstops => by
    obtain ⟨pc, hc, hpc⟩ := Option.bind_eq_some_iff.mp hstops
    rw [List.eq_of_mem_replicate (List.mem_of_getElem? hc)] at hpc
    cases hpc
  exact ⟨rfl, fun _ => houtside, fun c _ todo _ hc => absurd hc (houtside c todo),
    fun c todo hc => absurd hc (houtside c todo)⟩

/-- Clients and threads move, and no thread comes or goes. -/
theorem Sane.threads (hs : Sane program s) (backlog : List Client) {threads : List Thread}
    (hsum : (threads.map Thread.present).sum = (s.threads.map Thread.present).sum) :
    Sane program { s with backlog, threads } :=
  ⟨by rw [hs.counted, hsum], hs.running, hs.single,
    fun c todo hc =>
      have hprogress := hs.progress c todo hc
      ⟨hprogress.ordered, hprogress.waits, hprogress.joined, hprogress.waited⟩⟩

theorem Sane.threadStep (hs : Sane program s) {i : ℕ} {a : ThreadAction}
    (hstep : s.threadStep i a = some s') : Sane program s' := by
  obtain ⟨t, t', hi, ht', rfl⟩ := threadStep_cases hstep
  have hsum := sum_map_set Thread.present hi t'
  have hpresent := present_step ht'
  have hcounted := hs.counted
  refine ⟨?_, hs.running, hs.single, fun c todo hc => ?_⟩
  · by_cases hexit : a = .exit
    · rw [if_pos hexit] at hpresent ⊢
      dsimp only
      omega
    · rw [if_neg hexit] at hpresent ⊢
      dsimp only
      omega
  · obtain ⟨hordered, hwaits, hjoined, hwaited⟩ := hs.progress c todo hc
    refine ⟨hordered, hwaits, hjoined,
      fun hwaits => (hwaited hwaits).imp_right fun hall => ⟨hall.1, ?_⟩⟩
    dsimp only
    rw [hall.2]
    split <;> rfl

/-- As long as the accept thread runs, no call has joined it or waited for all threads. -/
theorem Progress.of_accepting {todo : List StopAction} (hprogress : Progress program todo s)
    (haccept : s.accept ≠ .finished) (s' : Lifetime) : Progress program todo s' := by
  have hjoin := hprogress.joined.resolve_right haccept
  exact ⟨hprogress.ordered, hprogress.waits, .inl hjoin,
    fun hwaits => .inl ((hprogress.waited hwaits).resolve_right fun hall => hall.1 hjoin)⟩

theorem Sane.clientStep (hs : Sane program s) {change : Bool → Client → Option Client}
    {place : Place} (hstep : s.clientStep change place = some s') : Sane program s' := by
  obtain ⟨k, client, rfl⟩ | ⟨client, client', haccept, -, rfl⟩ | ⟨i, t, client, hi, -, rfl⟩ :=
    clientStep_cases hstep
  · exact hs.threads _ rfl
  · have hcounted := hs.counted
    rw [haccept] at hcounted
    exact ⟨hcounted, hs.running, hs.single,
      fun c todo hc => (hs.progress c todo hc).of_accepting (by rw [haccept]; nofun) _⟩
  · refine hs.threads s.backlog ?_
    have hsum := sum_map_set Thread.present hi { t with toClient := client }
    exact Nat.add_right_cancel hsum

theorem Sane.acceptStep (hs : Sane program s) (hstep : s.acceptStep = some s') :
    Sane program s' := by
  have hcounted := hs.counted
  have hprogress : s.accept ≠ .finished → ∀ c todo, s.Stops c todo → Progress program todo s' :=
    fun haccept c todo hc => (hs.progress c todo hc).of_accepting haccept s'
  rcases acceptStep_cases hstep with ⟨haccept, rfl⟩ | ⟨client, later, haccept, -, -, rfl⟩ |
    ⟨haccept, -, rfl⟩ | ⟨client, haccept, rfl⟩
  · rw [haccept] at hcounted hprogress
    refine ⟨?_, hs.running, hs.single, hprogress (by decide)⟩
    rw [hcounted]
    cases s.running <;> rfl
  · rw [haccept] at hcounted hprogress
    refine ⟨?_, hs.running, hs.single, hprogress (by decide)⟩
    rw [hcounted]
    rfl
  · rw [haccept] at hcounted hprogress
    exact ⟨hcounted, hs.running, hs.single, hprogress (by decide)⟩
  · rw [haccept] at hcounted hprogress
    refine ⟨?_, hs.running, hs.single, hprogress nofun⟩
    simp [hcounted, Thread.present, AcceptPc.present]

/-- What a caller that moves on leaves as it was. -/
theorem stops_moved {c : ℕ} {pc : StopPc} (hcallers : s'.callers = s.callers.set c pc) {c' : ℕ}
    {todo : List StopAction} (hstops : s'.Stops c' todo) :
    c' = c ∧ pc.todo = some todo ∨ c' ≠ c ∧ s.Stops c' todo := by
  rw [Stops, hcallers, List.getElem?_set] at hstops
  by_cases hc : c = c'
  · rw [if_pos hc] at hstops
    split at hstops
    · exact .inl ⟨hc.symm, hstops⟩
    · cases hstops
  · rw [if_neg hc] at hstops
    exact .inr ⟨Ne.symm hc, hstops⟩

/-- The call of `stop` that is under way gets on. -/
theorem Sane.moved (hs : Sane program s) {c : ℕ} {pc : StopPc} {todo : List StopAction}
    (hc : s.Stops c todo) (hcallers : s'.callers = s.callers.set c pc)
    (hrunning : s'.running = s.running)
    (hcounted : s'.active = (s'.threads.map Thread.present).sum + s'.accept.present)
    (hprogress : ∀ todo, pc.todo = some todo → Progress program todo s') : Sane program s' := by
  have honly : ∀ c' todo', s'.Stops c' todo' → c' = c := fun c' todo' hc' => by
    rcases stops_moved hcallers hc' with ⟨rfl, -⟩ | ⟨-, hbefore⟩
    · rfl
    · exact hs.single _ _ _ _ hbefore hc
  refine ⟨hcounted, fun hrun => ?_, fun c₁ c₂ todo₁ todo₂ h₁ h₂ => ?_, fun c' todo' hc' => ?_⟩
  · exact absurd hc (hs.running (hrunning ▸ hrun) _ _)
  · rw [honly _ _ h₁, honly _ _ h₂]
  · rcases stops_moved hcallers hc' with ⟨-, htodo⟩ | ⟨hne, hbefore⟩
    · exact hprogress _ htodo
    · exact absurd (hs.single _ _ _ _ hbefore hc) hne

/-- A call has its next action behind it. -/
theorem Progress.tail {a : StopAction} {todo : List StopAction}
    (hprogress : Progress program (a :: todo) s) (s' : Lifetime)
    (hjoined : a = .join → s.accept = .finished) (hwaited : a = .drain none → s.active = 0)
    (haccept : s'.accept = s.accept) (hactive : s'.active = s.active) :
    Progress program todo s' := by
  refine ⟨hprogress.ordered.tail, fun hwaits => hprogress.waits (List.mem_cons_of_mem a hwaits),
    ?_, fun hwaits => ?_⟩
  · rw [haccept]
    rcases hprogress.joined with hjoin | hfinished
    · rcases List.mem_cons.mp hjoin with ha | hjoin
      · exact .inr (hjoined ha.symm)
      · exact .inl hjoin
    · exact .inr hfinished
  · rw [hactive]
    rcases hprogress.waited hwaits with hdrain | ⟨hjoin, hnone⟩
    · rcases List.mem_cons.mp hdrain with rfl | hdrain
      · exact .inr ⟨hprogress.ordered.1, hwaited rfl⟩
      · exact .inl hdrain
    · exact .inr ⟨fun htail => hjoin (List.mem_cons_of_mem a htail), hnone⟩

theorem Progress.next {c : ℕ} {pc : StopPc} {todo : List StopAction}
    (hprogress : Progress program todo s) (hstep : s.Stopping c todo pc s') {rest : List StopAction}
    (hrest : pc.todo = some rest) : Progress program rest s' := by
  cases hstep with
  | back =>
      cases hrest
      exact ⟨hprogress.ordered, hprogress.waits, hprogress.joined, hprogress.waited⟩
  | close todo =>
      cases hrest
      exact hprogress.tail _ nofun nofun rfl rfl
  | join todo hfinished =>
      cases hrest
      exact hprogress.tail _ (fun _ => hfinished) nofun rfl rfl
  | shutdown todo =>
      cases hrest
      exact hprogress.tail _ nofun nofun rfl rfl
  | drained polls todo hnone =>
      cases hrest
      exact hprogress.tail _ nofun (fun _ => hnone) rfl rfl
  | tired todo =>
      cases hrest
      exact hprogress.tail _ nofun nofun rfl rfl
  | poll k todo =>
      cases hrest
      have hagain : ∀ a : StopAction, a = .join ∨ a = .drain none →
          (a ∈ StopAction.drain (some k) :: todo ↔
            a ∈ StopAction.drain (some (k + 1)) :: todo) := by
        rintro a (rfl | rfl) <;> simp
      refine ⟨hprogress.ordered, fun hwaits => ?_, ?_, fun hwaits => ?_⟩
      · exact hprogress.waits ((hagain _ (.inr rfl)).mp hwaits)
      · exact hprogress.joined.imp_left (hagain _ (.inl rfl)).mpr
      · rw [hagain _ (.inl rfl), hagain _ (.inr rfl)]
        exact hprogress.waited hwaits

theorem Sane.stopStep (hs : Sane program s) {c : ℕ} (hstep : s.stopStep c = some s') :
    Sane program s' := by
  obtain ⟨todo, pc, hc, hstopping⟩ := stopping_of_stopStep hstep
  have hstops : s.Stops c todo := by rw [Stops, hc]; rfl
  have hnext := fun rest (hrest : pc.todo = some rest) =>
    (hs.progress c todo hstops).next hstopping hrest
  have hcounted := hs.counted
  cases hstopping with
  | shutdown todo =>
      refine hs.moved hstops rfl rfl ?_ hnext
      rw [sum_map_shutdown present_shutdown]
      exact hcounted
  | _ => exact hs.moved hstops rfl rfl hcounted hnext

theorem Sane.callStopStep (hs : Sane program s) (hordered : Ordered program)
    (hjoins : .join ∈ program) {c : ℕ} (hstep : callStopStep program s c = some s') :
    Sane program s' := by
  obtain ⟨-, ⟨hrunning, rfl⟩ | ⟨-, rfl⟩⟩ := callStopStep_cases hstep
  · -- It is the first call: the server is still running, so no other call has begun.
    have hfresh : ∀ c' todo,
        Stops { s.moveTo c (.stopping program) with running := false } c' todo →
          c' = c ∧ todo = program := fun c' todo hstops => by
      rcases stops_moved rfl hstops with ⟨rfl, htodo⟩ | ⟨-, hbefore⟩
      · exact ⟨rfl, (Option.some.inj htodo).symm⟩
      · exact absurd hbefore (hs.running hrunning _ _)
    refine ⟨hs.counted, nofun, fun c₁ c₂ todo₁ todo₂ h₁ h₂ => ?_, fun c' todo hstops => ?_⟩
    · rw [(hfresh _ _ h₁).1, (hfresh _ _ h₂).1]
    · rw [(hfresh _ _ hstops).2]
      exact ⟨hordered, id, .inl hjoins, .inl⟩
  · have hbefore : ∀ c' todo, Stops (s.moveTo c (.returned false)) c' todo → s.Stops c' todo :=
      fun c' todo hstops => by
        rcases stops_moved rfl hstops with ⟨-, htodo⟩ | ⟨-, hbefore⟩
        · cases htodo
        · exact hbefore
    refine ⟨hs.counted, fun hrun c' todo hstops => ?_, fun c₁ c₂ todo₁ todo₂ h₁ h₂ => ?_,
      fun c' todo hstops => ?_⟩
    · exact hs.running hrun _ _ (hbefore _ _ hstops)
    · exact hs.single _ _ _ _ (hbefore _ _ h₁) (hbefore _ _ h₂)
    · obtain ⟨h₁, h₂, h₃, h₄⟩ := hs.progress _ _ (hbefore _ _ hstops)
      exact ⟨h₁, h₂, h₃, h₄⟩

theorem Sane.act (hs : Sane program s) (hordered : Ordered program) (hjoins : .join ∈ program)
    {a : LifeAction} (hstep : s.act program a = some s') : Sane program s' := by
  cases a with
  | connect =>
      cases hstep
      exact hs.threads _ rfl
  | send place n => exact hs.clientStep hstep
  | hangUp place =>
      exact hs.clientStep (show s.clientStep (fun _ => Client.hangUp) place = some s' from hstep)
  | callStop c => exact hs.callStopStep hordered hjoins hstep
  | accept => exact hs.acceptStep hstep
  | thread i a => exact hs.threadStep hstep
  | stop c => exact hs.stopStep hstep

theorem sane_of_reaches (hordered : Ordered program) (hjoins : .join ∈ program) {callers : ℕ}
    (hreach : Reaches (act program) Free (started callers) s) : Sane program s :=
  hreach.invariant (Sane program) (sane_started program callers)
    fun _ _ _ hs _ hstep => hs.act hordered hjoins hstep

/-- When the daemon's `stop` returns, nothing of it runs any more. -/
theorem stop_leaves_nobody {callers : ℕ} {s : Lifetime} {c : ℕ}
    (hreach : Reaches (act arcaStop) Free (started callers) s)
    (hback : s.callers[c]? = some (.returned true)) :
    s.accept = .finished ∧ s.active = 0 ∧ ∀ t ∈ s.threads, t.pc = .gone := by
  have hs := sane_of_reaches ordered_arcaStop (by decide) hreach
  have hprogress := hs.progress c [] (by rw [Stops, hback]; rfl)
  have haccept := hprogress.joined.resolve_left List.not_mem_nil
  have hnone := ((hprogress.waited (by decide)).resolve_left List.not_mem_nil).2
  refine ⟨haccept, hnone, fun t ht => ?_⟩
  have hcounted : 0 = (s.threads.map Thread.present).sum + AcceptPc.finished.present := by
    rw [← haccept, ← hs.counted, hnone]
  have hpresent : t.present = 0 :=
    List.sum_eq_zero_iff.mp hcounted.symm _ (List.mem_map_of_mem ht)
  by_contra hstays
  rw [Thread.present, if_neg hstays] at hpresent
  cases hpresent

theorem stop_leaves_nobody_one : ∃ s, Reaches (act arcaStop) Free (started 1) s ∧
    s.accept = .finished ∧ s.active = 0 ∧ ∀ t ∈ s.threads, t.pc = .gone := by
  obtain ⟨s, hreach, hback⟩ := exists_reaches (act arcaStop) Free (started 1)
    [.connect, .send (.pending 0) 5, .accept, .accept, .accept, .thread 0 .register,
      .thread 0 (.read 3 false), .callStop 0, .accept, .stop 0, .stop 0, .stop 0,
      .thread 0 .readFails, .thread 0 .exit, .stop 0, .stop 0]
    (fun s => s.callers[0]? = some (.returned true)) (by decide)
  exact ⟨s, hreach, stop_leaves_nobody hreach (of_decide_eq_true hback)⟩

end Lifetime

end Reame.Server
