import Reame.Arca.Resp
import Reame.Foundation.Interleaving

/-!
# One connection, many callers

An engine in parallel mode serves several threads, and all of them use one `ArcaClient`
with one connection: `get` and `set` connect if need be, write a command and read a
reply.  There is no lock, and nothing in a reply says which command it answers.

The state has the commands and the reply bytes under way, the archive behind them, and a
program counter for every thread.  Each call carries a ticket, and so do its command and
the bytes of the reply to it; the tickets are for the reader of the model, no function
looks at them.  A `read_some` returns any number of the bytes that are there, or fails
with a timeout or a closed connection.

Where a call finds that another one has dropped the socket since it connected, the source
dereferences an empty `std::optional`; the model has no step there.
-/

namespace Reame.Arca

open Interleaving

/-- The calls on an `ArcaCache`. -/
inductive Operation
  | get (key : Bytes)
  | set (key value : Bytes)
deriving DecidableEq, Repr

/-- `kMaxBulkBytes`. -/
def kMaxBulkBytes : ℕ := 64 * 1024 * 1024

/-- The first argument that `RespParser` refuses. -/
def Operation.oversized (op : Operation) : Option Bytes :=
  match op with
  | .get key => [key].find? (kMaxBulkBytes < ·.length)
  | .set key value => [key, value].find? (kMaxBulkBytes < ·.length)

/-- One connection: the commands the daemon has not handled, the reply bytes nobody has
read, and whether the daemon has closed it. -/
structure Connection where
  requests : List (ℕ × Operation) := []
  replies : List (ℕ × UInt8) := []
  closed : Bool := false
deriving DecidableEq, Repr

/-- Where a thread is in `get` or `set`. -/
inductive ClientPc
  | outside
  | connecting (ticket : ℕ) (op : Operation)
  | writing (ticket : ℕ) (op : Operation)
  /-- In `read_reply`, with the bytes received so far. -/
  | reading (ticket : ℕ) (op : Operation) (buf : List (ℕ × UInt8))
  /-- Back from the call. -/
  | returned (ticket : ℕ) (op : Operation) (buf : List (ℕ × UInt8)) (result : Option Bytes)
deriving DecidableEq, Repr

/-- The client, the archive and the threads. -/
structure ClientState where
  sock : Option Connection
  archive : List (Bytes × Bytes)
  /-- Everything that was ever stored. -/
  stored : List (Bytes × Bytes)
  callers : List ClientPc
  nextTicket : ℕ
deriving DecidableEq, Repr

/-- What can happen next. -/
inductive ClientAction
  | call (c : ℕ) (op : Operation)
  | connect (c : ℕ) (succeeds : Bool)
  | write (c : ℕ) (succeeds : Bool)
  /-- `read_some` returns this many bytes. -/
  | read (c n : ℕ)
  /-- `read_some` fails. -/
  | fail (c : ℕ)
  /-- The daemon handles the next command; `fits` says whether its store takes the value. -/
  | serve (fits : Bool)
  /-- Another client's `SET`, or one of a connection that was dropped. -/
  | store (key value : Bytes)
  /-- The daemon evicts an entry. -/
  | evict (key : Bytes)
deriving DecidableEq, Repr

namespace ClientState

/-- A new client and as many threads that may call it. -/
def initial (threads : ℕ) : ClientState where
  sock := none
  archive := []
  stored := []
  callers := List.replicate threads .outside
  nextTicket := 0

/-- `Archive::dispatch` of a `SET` that fits. -/
def put (s : ClientState) (key value : Bytes) : ClientState :=
  { s with
    archive := (key, value) :: s.archive.filter (·.1 ≠ key)
    stored := (key, value) :: s.stored }

/-- What the daemon answers, the state after it, and whether it closes the connection. -/
def dispatch (s : ClientState) (op : Operation) (fits : Bool) : Reply × ClientState × Bool :=
  match op.oversized with
  | some argument =>
      (.error (ascii "ERR unreasonable RESP bulk length: " ++ Wire.decimal argument.length), s, true)
  | none =>
      match op with
      | .get key => ((s.archive.lookup key).elim .nil .bulk, s, false)
      | .set key value =>
          if fits then (.ok, s.put key value, false)
          else (.error (ascii "ERR value larger than the archive budget"), s, false)

/-- `serve`: the daemon handles the next command of the connection. -/
def serveStep (s : ClientState) (fits : Bool) : Option ClientState :=
  match s.sock with
  | some ⟨(ticket, op) :: requests, replies, false⟩ =>
      let (reply, s, closed) := s.dispatch op fits
      some { s with
        sock := some ⟨requests, replies ++ reply.bytes.map (ticket, ·), closed⟩ }
  | _ => none

/-- A thread's program counter changes. -/
def moveTo (s : ClientState) (c : ℕ) (pc : ClientPc) : ClientState :=
  { s with callers := s.callers.set c pc }

/-- `drop`, and the call returns `nullopt`. -/
def giveUp (s : ClientState) (c ticket : ℕ) (op : Operation) (buf : List (ℕ × UInt8)) :
    ClientState :=
  { s.moveTo c (.returned ticket op buf none) with sock := none }

/-- The beginning of a call. -/
def callStep (s : ClientState) (c : ℕ) (op : Operation) : Option ClientState :=
  match s.callers[c]? with
  | some .outside | some (.returned ..) =>
      some { s.moveTo c (.connecting s.nextTicket op) with nextTicket := s.nextTicket + 1 }
  | _ => none

/-- `connect`. -/
def connectStep (s : ClientState) (c : ℕ) (succeeds : Bool) : Option ClientState :=
  match s.callers[c]?, s.sock with
  | some (.connecting ticket op), some _ => some (s.moveTo c (.writing ticket op))
  | some (.connecting ticket op), none =>
      if succeeds then some { s.moveTo c (.writing ticket op) with sock := some {} }
      else some (s.moveTo c (.returned ticket op [] none))
  | _, _ => none

/-- `write_all`. -/
def writeStep (s : ClientState) (c : ℕ) (succeeds : Bool) : Option ClientState :=
  match s.callers[c]?, s.sock with
  | some (.writing ticket op), some conn =>
      if succeeds then
        some { s.moveTo c (.reading ticket op []) with
          sock := some { conn with requests := conn.requests ++ [(ticket, op)] } }
      else some (s.giveUp c ticket op [])
  | _, _ => none

/-- `recv_more`, and `read_reply` goes on with what it has. -/
def readStep (s : ClientState) (c n : ℕ) : Option ClientState :=
  match s.callers[c]?, s.sock with
  | some (.reading ticket op buf), some conn =>
      if 0 < n ∧ n ≤ 4096 ∧ n ≤ conn.replies.length then
        let buf := buf ++ conn.replies.take n
        let s := { s with sock := some { conn with replies := conn.replies.drop n } }
        match readReply (buf.map Prod.snd) with
        | .more => some (s.moveTo c (.reading ticket op buf))
        | .throws _ => some (s.giveUp c ticket op buf)
        | .reply value =>
            match op with
            | .get _ => some (s.moveTo c (.returned ticket op buf value))
            | .set _ _ => some (s.moveTo c (.returned ticket op buf none))
      else none
  | _, _ => none

/-- `recv_more` that fails. -/
def failStep (s : ClientState) (c : ℕ) : Option ClientState :=
  match s.callers[c]?, s.sock with
  | some (.reading ticket op buf), some _ => some (s.giveUp c ticket op buf)
  | _, _ => none

/-- One step of one thread, of the daemon or of the rest of the world. -/
def act (s : ClientState) : ClientAction → Option ClientState
  | .call c op => s.callStep c op
  | .connect c succeeds => s.connectStep c succeeds
  | .write c succeeds => s.writeStep c succeeds
  | .read c n => s.readStep c n
  | .fail c => s.failStep c
  | .serve fits => s.serveStep fits
  | .store key value => if value.length ≤ kMaxBulkBytes then some (s.put key value) else none
  | .evict key => some { s with archive := s.archive.filter (·.1 ≠ key) }

/-! ## Cross-talk -/

end ClientState

/-- The thread has written its command and not returned. -/
def ClientPc.isReading : ClientPc → Bool
  | .reading .. => true
  | _ => false

/-- A `get` has returned nothing or a value stored under its key, and a `set` has read
nothing but its own reply. -/
def ClientPc.Clean (stored : List (Bytes × Bytes)) : ClientPc → Prop
  | .reading ticket (.set _ _) buf => ∀ b ∈ buf, b.1 = ticket
  | .returned ticket (.set _ _) buf _ => ∀ b ∈ buf, b.1 = ticket
  | .returned _ (.get key) _ (some value) => (key, value) ∈ stored
  | _ => True

theorem ClientPc.Clean.mono {stored stored' : List (Bytes × Bytes)} (hsub : stored ⊆ stored')
    {pc : ClientPc} (hclean : pc.Clean stored) : pc.Clean stored' := by
  cases pc with
  | reading ticket op buf => cases op <;> exact hclean
  | returned ticket op buf result =>
      cases op with
      | set key value => exact hclean
      | get key =>
          cases result with
          | none => trivial
          | some value => exact hsub hclean
  | _ => trivial

namespace ClientState

/-- Nobody gets what is not his. -/
def NoCrossTalk (s : ClientState) : Prop := ∀ pc ∈ s.callers, pc.Clean s.stored

/-- The action writes a command while another call still waits for its reply. -/
def overlaps (s : ClientState) : ClientAction → Bool
  | .write _ _ => s.callers.any ClientPc.isReading
  | _ => false

/-- A reply that may answer an operation. -/
structure Answers (stored : List (Bytes × Bytes)) (op : Operation) (r : Reply) : Prop where
  wellFormed : r.WellFormed
  value : ∀ key value, op = .get key → r.value = some value → (key, value) ∈ stored

/-- A call and the connection it waits on: the daemon has not handled the command yet, or
the reply to it is partly read. -/
inductive Underway (stored : List (Bytes × Bytes)) (ticket : ℕ) (op : Operation) :
    List (ℕ × UInt8) → Connection → Prop
  | asked (closed : Bool) : Underway stored ticket op [] ⟨[(ticket, op)], [], closed⟩
  | answered {r : Reply} (hanswers : Answers stored op r) {buf replies : List (ℕ × UInt8)}
      (hbytes : buf ++ replies = r.bytes.map (ticket, ·)) (hlt : buf.length < r.bytes.length)
      (closed : Bool) : Underway stored ticket op buf ⟨[], replies, closed⟩

/-- At most one call is under way. -/
structure Alone (s : ClientState) : Prop where
  archive : ∀ entry ∈ s.archive, entry ∈ s.stored ∧ entry.2.length ≤ kMaxBulkBytes
  single : ∀ (c c' : ℕ) (pc pc' : ClientPc), s.callers[c]? = some pc →
    s.callers[c']? = some pc' → pc.isReading → pc'.isReading → c = c'
  quiet : (∀ pc ∈ s.callers, pc.isReading = false) →
    ∀ conn, s.sock = some conn → conn.requests = [] ∧ conn.replies = []
  underway : ∀ ticket op buf, .reading ticket op buf ∈ s.callers →
    ∃ conn, s.sock = some conn ∧ Underway s.stored ticket op buf conn
  clean : s.NoCrossTalk

theorem Underway.mono {stored stored' : List (Bytes × Bytes)} (hsub : stored ⊆ stored')
    {ticket : ℕ} {op : Operation} {buf : List (ℕ × UInt8)} {conn : Connection}
    (hunderway : Underway stored ticket op buf conn) : Underway stored' ticket op buf conn := by
  cases hunderway with
  | asked closed => exact .asked closed
  | answered hanswers hbytes hlt closed =>
      have hanswers' : Answers stored' op _ :=
        ⟨hanswers.wellFormed, fun key value hop hvalue => hsub (hanswers.value key value hop hvalue)⟩
      exact .answered hanswers' hbytes hlt closed

theorem reply_bytes_pos {r : Reply} : 0 < r.bytes.length := by
  cases r <;> exact Nat.succ_pos _

theorem own_of_append {ticket : ℕ} {bytes : Bytes} {buf rest : List (ℕ × UInt8)}
    (hbytes : buf ++ rest = bytes.map (ticket, ·)) : ∀ b ∈ buf, b.1 = ticket := by
  intro b hb
  have hmem : b ∈ bytes.map (ticket, ·) := hbytes ▸ List.mem_append_left rest hb
  obtain ⟨byte, -, rfl⟩ := List.mem_map.mp hmem
  rfl

theorem Underway.own {stored : List (Bytes × Bytes)} {ticket : ℕ} {op : Operation}
    {buf : List (ℕ × UInt8)} {conn : Connection} (hunderway : Underway stored ticket op buf conn) :
    ∀ b ∈ buf, b.1 = ticket := by
  cases hunderway with
  | asked closed => exact nofun
  | answered _ hbytes _ closed => exact own_of_append hbytes

theorem alone_initial (threads : ℕ) : Alone (initial threads) := by
  have houtside : ∀ pc ∈ (initial threads).callers, pc = .outside := fun pc hmem =>
    List.eq_of_mem_replicate hmem
  refine ⟨nofun, fun c c' pc pc' hpc _ hreading _ => ?_, fun _ _ hsock => ?_,
    fun ticket op buf hmem => ?_, fun pc hmem => ?_⟩
  · rw [houtside pc (List.mem_of_getElem? hpc)] at hreading
    cases hreading
  · cases hsock
  · cases houtside _ hmem
  · rw [houtside pc hmem]
    trivial

/-- A thread moves on outside the part of a call that waits for a reply; the socket may be
new or gone if nobody waits. -/
theorem Alone.move {s : ClientState} (halone : Alone s) {c ticket : ℕ} {pc pc' : ClientPc}
    {sock : Option Connection} (hpc : s.callers[c]? = some pc) (hpc' : pc'.isReading = false)
    (hclean : pc'.Clean s.stored)
    (hsock : sock = s.sock ∧ pc.isReading = false ∨
      (∀ (c' : ℕ) (other : ClientPc), s.callers[c']? = some other → other.isReading → c' = c) ∧
        ∀ conn, sock = some conn → conn.requests = [] ∧ conn.replies = []) :
    Alone { s.moveTo c pc' with sock, nextTicket := ticket } := by
  have hset : ∀ {c' : ℕ} {other : ClientPc},
      (s.callers.set c pc')[c']? = some other → other.isReading →
      c' ≠ c ∧ s.callers[c']? = some other := by
    intro c' other hother hreading
    have hne : c' ≠ c := by
      rintro rfl
      rw [List.getElem?_set_self (List.getElem?_eq_some_iff.mp hpc).1, Option.some.injEq] at hother
      rw [← hother, hpc'] at hreading
      cases hreading
    rw [List.getElem?_set_ne hne.symm] at hother
    exact ⟨hne, hother⟩
  refine ⟨halone.archive, ?_, ?_, ?_, ?_⟩
  · intro c₁ c₂ pc₁ pc₂ h₁ h₂ hr₁ hr₂
    exact halone.single c₁ c₂ pc₁ pc₂ (hset h₁ hr₁).2 (hset h₂ hr₂).2 hr₁ hr₂
  · intro hnone conn hconn
    rcases hsock with ⟨rfl, hout⟩ | ⟨-, hempty⟩
    · refine halone.quiet (fun other hmem => ?_) conn hconn
      obtain ⟨c', hc'⟩ := List.mem_iff_getElem?.mp hmem
      by_cases heq : c' = c
      · rw [heq, hpc, Option.some.injEq] at hc'
        rw [← hc', hout]
      · refine hnone other (List.mem_iff_getElem?.mpr ⟨c', ?_⟩)
        rw [moveTo, List.getElem?_set_ne (Ne.symm heq), hc']
    · exact hempty conn hconn
  · intro ticket op buf hmem
    obtain ⟨c', hc'⟩ := List.mem_iff_getElem?.mp hmem
    obtain ⟨hne, hold⟩ := hset hc' rfl
    rcases hsock with ⟨rfl, -⟩ | ⟨honly, -⟩
    · exact halone.underway ticket op buf (List.mem_of_getElem? hold)
    · exact absurd (honly c' _ hold rfl) hne
  · intro other hmem
    rcases List.mem_or_eq_of_mem_set hmem with hold | rfl
    · exact halone.clean other hold
    · exact hclean

theorem Alone.only {s : ClientState} (halone : Alone s) {c : ℕ} {pc : ClientPc}
    (hpc : s.callers[c]? = some pc) (hreading : pc.isReading) (c' : ℕ) (other : ClientPc)
    (hother : s.callers[c']? = some other) (hreading' : other.isReading) : c' = c :=
  halone.single c' c other pc hother hpc hreading' hreading

/-- A call that fails takes the socket with it, and nobody else waits on it. -/
theorem Alone.giveUp {s : ClientState} (halone : Alone s) {c ticket : ℕ} {op : Operation}
    {buf buf' : List (ℕ × UInt8)} (hpc : s.callers[c]? = some (.reading ticket op buf))
    (hown : ∀ b ∈ buf', b.1 = ticket) : Alone (s.giveUp c ticket op buf') := by
  have hclean : (ClientPc.returned ticket op buf' none).Clean s.stored := by
    cases op with
    | get key => trivial
    | set key value => exact hown
  exact halone.move hpc rfl hclean (.inr ⟨halone.only hpc rfl, nofun⟩)

theorem Alone.callStep {s s' : ClientState} (halone : Alone s) {c : ℕ} {op : Operation}
    (hstep : s.callStep c op = some s') : Alone s' := by
  unfold ClientState.callStep at hstep
  split at hstep
  case h_1 hpc =>
      cases hstep
      exact halone.move hpc rfl trivial (.inl ⟨rfl, rfl⟩)
  case h_2 hpc =>
      cases hstep
      exact halone.move hpc rfl trivial (.inl ⟨rfl, rfl⟩)
  case h_3 => cases hstep

theorem Alone.connectStep {s s' : ClientState} (halone : Alone s) {c : ℕ} {succeeds : Bool}
    (hstep : s.connectStep c succeeds = some s') : Alone s' := by
  unfold ClientState.connectStep at hstep
  split at hstep
  case h_1 ticket op conn hpc hsock =>
      cases hstep
      exact halone.move hpc rfl trivial (.inl ⟨rfl, rfl⟩)
  case h_2 ticket op hpc hsock =>
      have hnobody : ∀ (c' : ℕ) (other : ClientPc), s.callers[c']? = some other →
          other.isReading → c' = c := by
        intro c' other hother hreading
        cases other with
        | reading ticket' op' buf =>
            obtain ⟨conn, hconn, -⟩ := halone.underway _ _ _ (List.mem_of_getElem? hother)
            rw [hsock] at hconn
            cases hconn
        | _ => cases hreading
      split at hstep
      · cases hstep
        refine halone.move hpc rfl trivial (.inr ⟨hnobody, fun conn hconn => ?_⟩)
        cases hconn
        exact ⟨rfl, rfl⟩
      · cases hstep
        have hclean : (ClientPc.returned ticket op [] none).Clean s.stored := by
          cases op with
          | get key => trivial
          | set key value => exact nofun
        exact halone.move hpc rfl hclean (.inl ⟨rfl, rfl⟩)
  case h_3 => cases hstep

/-- A call waits for its reply, and nobody else waits. -/
theorem Alone.wait {s : ClientState} (halone : Alone s) {c ticket : ℕ} {op : Operation}
    {buf : List (ℕ × UInt8)} {conn : Connection} (hc : c < s.callers.length)
    (honly : ∀ (c' : ℕ) (other : ClientPc), s.callers[c']? = some other →
      other.isReading → c' = c)
    (hunderway : Underway s.stored ticket op buf conn) (hown : ∀ b ∈ buf, b.1 = ticket) :
    Alone { s.moveTo c (.reading ticket op buf) with sock := some conn } := by
  have hclean : (ClientPc.reading ticket op buf).Clean s.stored := by
    cases op with
    | get key => trivial
    | set key value => exact hown
  have hreader : ∀ (c' : ℕ) (other : ClientPc),
      (s.callers.set c (.reading ticket op buf))[c']? = some other → other.isReading → c' = c := by
    intro c' other hother hreading
    by_contra hne
    rw [List.getElem?_set_ne (Ne.symm hne)] at hother
    exact hne (honly c' other hother hreading)
  refine ⟨halone.archive, ?_, ?_, ?_, ?_⟩
  · intro c₁ c₂ pc₁ pc₂ h₁ h₂ hr₁ hr₂
    rw [hreader c₁ pc₁ h₁ hr₁, hreader c₂ pc₂ h₂ hr₂]
  · intro hquiet
    cases hquiet _ (List.mem_set hc (.reading ticket op buf))
  · intro ticket' op' buf' hmem
    obtain ⟨c', hc'⟩ := List.mem_iff_getElem?.mp hmem
    obtain rfl := hreader c' _ hc' rfl
    rw [moveTo, List.getElem?_set_self hc] at hc'
    cases hc'
    exact ⟨conn, rfl, hunderway⟩
  · intro other hmem
    rcases List.mem_or_eq_of_mem_set hmem with hold | rfl
    · exact halone.clean other hold
    · exact hclean

theorem Alone.writeStep {s s' : ClientState} (halone : Alone s) {c : ℕ} {succeeds : Bool}
    (hclear : s.overlaps (.write c succeeds) = false)
    (hstep : s.writeStep c succeeds = some s') : Alone s' := by
  have hnone : ∀ pc ∈ s.callers, pc.isReading = false := by
    simpa [overlaps] using hclear
  have hnobody : ∀ (c' : ℕ) (other : ClientPc), s.callers[c']? = some other →
      other.isReading → c' = c := by
    intro c' other hother hreading
    rw [hnone other (List.mem_of_getElem? hother)] at hreading
    cases hreading
  unfold ClientState.writeStep at hstep
  split at hstep
  case h_1 ticket op conn hpc hsock =>
      split at hstep
      · cases hstep
        obtain ⟨hrequests, hreplies⟩ := halone.quiet hnone conn hsock
        obtain ⟨requests, replies, closed⟩ := conn
        obtain rfl : requests = [] := hrequests
        obtain rfl : replies = [] := hreplies
        exact halone.wait (List.getElem?_eq_some_iff.mp hpc).1 hnobody (.asked closed) nofun
      · cases hstep
        have hclean : (ClientPc.returned ticket op [] none).Clean s.stored := by
          cases op with
          | get key => trivial
          | set key value => exact nofun
        exact halone.move hpc rfl hclean (.inr ⟨hnobody, nofun⟩)
  case h_2 => cases hstep

/-- A part of the reply arrives: it does not decide, or it is the rest of the reply and
the call returns what the reply says. -/
theorem Alone.readStep {s s' : ClientState} (halone : Alone s) {c n : ℕ}
    (hstep : s.readStep c n = some s') : Alone s' := by
  unfold ClientState.readStep at hstep
  split at hstep
  case h_1 ticket op buf conn hpc hsock =>
      obtain ⟨conn', hconn, hunderway⟩ := halone.underway _ _ _ (List.mem_of_getElem? hpc)
      obtain rfl : conn = conn' := by rwa [hsock, Option.some.injEq] at hconn
      split at hstep
      case isTrue hn =>
          cases hunderway with
          | asked closed =>
              simp only [List.length_nil] at hn
              omega
          | @answered r hanswers _ replies hbytes hlt closed =>
              have hsplit : buf ++ replies.take n ++ replies.drop n = r.bytes.map (ticket, ·) := by
                rw [List.append_assoc, List.take_append_drop, hbytes]
              dsimp only at hstep
              generalize buf ++ replies.take n = buf' at hstep hsplit
              generalize replies.drop n = rest at hstep hsplit
              have hown : ∀ b ∈ buf', b.1 = ticket := own_of_append hsplit
              have hpart : buf'.map Prod.snd ++ rest.map Prod.snd = r.bytes := by
                rw [← List.map_append, hsplit, List.map_map]
                exact List.map_id _
              have honly := halone.only hpc rfl
              cases rest with
              | cons b rest =>
                  have hshort : (buf'.map Prod.snd).length < r.bytes.length := by
                    rw [← hpart]
                    simp
                  rw [readReply_part hanswers.wellFormed ⟨_, hpart⟩ hshort] at hstep
                  cases hstep
                  rw [List.length_map] at hshort
                  exact halone.wait (List.getElem?_eq_some_iff.mp hpc).1 honly
                    (.answered hanswers hsplit hshort closed) hown
              | nil =>
                  rw [List.map_nil, List.append_nil] at hpart
                  rw [hpart, readReply_bytes hanswers.wellFormed] at hstep
                  have hempty : ∀ conn : Connection, some ⟨[], [], closed⟩ = some conn →
                      conn.requests = [] ∧ conn.replies = [] := by
                    rintro conn ⟨⟩
                    exact ⟨rfl, rfl⟩
                  cases op with
                  | set key value =>
                      cases hstep
                      exact halone.move hpc rfl hown (.inr ⟨honly, hempty⟩)
                  | get key =>
                      cases hstep
                      have hclean : (ClientPc.returned ticket (.get key) buf' r.value).Clean
                          s.stored := by
                        cases hvalue : r.value with
                        | none => trivial
                        | some value => exact hanswers.value key value rfl hvalue
                      exact halone.move hpc rfl hclean (.inr ⟨honly, hempty⟩)
      case isFalse => cases hstep
  case h_2 => cases hstep

theorem Alone.failStep {s s' : ClientState} (halone : Alone s) {c : ℕ}
    (hstep : s.failStep c = some s') : Alone s' := by
  unfold ClientState.failStep at hstep
  split at hstep
  case h_1 ticket op buf conn hpc hsock =>
      cases hstep
      refine halone.giveUp hpc fun b hb => ?_
      obtain ⟨conn', -, hunderway⟩ := halone.underway _ _ _ (List.mem_of_getElem? hpc)
      exact hunderway.own b hb
  case h_2 => cases hstep

/-- The archive and the record of what was stored may change as long as the archive holds
only what was stored. -/
theorem Alone.restock {s : ClientState} (halone : Alone s) {archive stored : List (Bytes × Bytes)}
    (harchive : ∀ entry ∈ archive, entry ∈ stored ∧ entry.2.length ≤ kMaxBulkBytes)
    (hsub : s.stored ⊆ stored) : Alone { s with archive, stored } where
  archive := harchive
  single := halone.single
  quiet := halone.quiet
  underway ticket op buf hmem := by
    obtain ⟨conn, hconn, hunderway⟩ := halone.underway ticket op buf hmem
    exact ⟨conn, hconn, hunderway.mono hsub⟩
  clean pc hmem := (halone.clean pc hmem).mono hsub

theorem Alone.put {s : ClientState} (halone : Alone s) {key value : Bytes}
    (hvalue : value.length ≤ kMaxBulkBytes) : Alone (s.put key value) := by
  refine halone.restock (fun entry hentry => ?_) (List.subset_cons_self _ _)
  rcases List.mem_cons.mp hentry with rfl | hold
  · exact ⟨List.mem_cons_self .., hvalue⟩
  · obtain ⟨hmem, hsmall⟩ := halone.archive entry (List.mem_filter.mp hold).1
    exact ⟨List.mem_cons_of_mem _ hmem, hsmall⟩

/-- Whatever the daemon answers, answers the command. -/
theorem Alone.dispatch {s s' : ClientState} (halone : Alone s) {op : Operation} {fits closed : Bool}
    {reply : Reply} (hdispatch : s.dispatch op fits = (reply, s', closed)) :
    Alone s' ∧ s'.sock = s.sock ∧ s'.callers = s.callers ∧ Answers s'.stored op reply := by
  unfold ClientState.dispatch at hdispatch
  split at hdispatch
  case h_1 argument hoversized =>
      cases hdispatch
      refine ⟨halone, rfl, rfl, ?_, by simp [Reply.value]⟩
      have htext : (13 : UInt8) ∉ ascii "ERR unreasonable RESP bulk length: " := by decide
      simp [Reply.WellFormed, htext, Wire.cr_notMem_decimal]
  case h_2 hsmall =>
      cases op with
      | get key =>
          cases hdispatch
          refine ⟨halone, rfl, rfl, ?_⟩
          cases hlookup : s.archive.lookup key with
          | none => exact ⟨trivial, by simp [Reply.value]⟩
          | some value =>
              have hmem : (key, value) ∈ s.archive := by
                obtain ⟨before, after, heq, -⟩ := List.lookup_eq_some_iff.mp hlookup
                rw [heq]
                exact List.mem_append_right _ (List.mem_cons_self ..)
              obtain ⟨hstored, hlength⟩ := halone.archive _ hmem
              refine ⟨hlength.trans_lt (by decide), ?_⟩
              rintro _ _ ⟨⟩ ⟨⟩
              exact hstored
      | set key value =>
          dsimp only at hdispatch
          split at hdispatch
          · cases hdispatch
            have hvalue : value.length ≤ kMaxBulkBytes := by
              simp only [Operation.oversized, List.find?_eq_none] at hsmall
              simpa using hsmall value (by simp)
            exact ⟨halone.put hvalue, rfl, rfl, trivial, by simp⟩
          · cases hdispatch
            have htext : (13 : UInt8) ∉ ascii "ERR value larger than the archive budget" := by decide
            exact ⟨halone, rfl, rfl, htext, by simp⟩

/-- A command that the daemon has not handled is that of the call that waits. -/
theorem Alone.asker {s : ClientState} (halone : Alone s) {ticket : ℕ} {op : Operation}
    {requests : List (ℕ × Operation)} {replies : List (ℕ × UInt8)} {closed : Bool}
    (hsock : s.sock = some ⟨(ticket, op) :: requests, replies, closed⟩) :
    ∃ c : ℕ, s.callers[c]? = some (.reading ticket op []) ∧ requests = [] ∧ replies = [] := by
  obtain ⟨pc, hmem, hreading⟩ : ∃ pc ∈ s.callers, pc.isReading = true := by
    by_contra hnone
    have hquiet : ∀ pc ∈ s.callers, pc.isReading = false := fun pc hmem =>
      Bool.not_eq_true _ ▸ fun hreading => hnone ⟨pc, hmem, hreading⟩
    cases (halone.quiet hquiet _ hsock).1
  obtain ⟨c, hc⟩ := List.mem_iff_getElem?.mp hmem
  cases pc with
  | reading ticket' op' buf =>
      obtain ⟨conn, hconn, hunderway⟩ := halone.underway _ _ _ hmem
      rw [hsock, Option.some.injEq] at hconn
      subst hconn
      cases hunderway
      exact ⟨c, hc, rfl, rfl⟩
  | _ => cases hreading

theorem Alone.serveStep {s s' : ClientState} (halone : Alone s) {fits : Bool}
    (hstep : s.serveStep fits = some s') : Alone s' := by
  unfold ClientState.serveStep at hstep
  split at hstep
  case h_1 ticket op requests replies hsock =>
      obtain ⟨c, hpc, rfl, rfl⟩ := halone.asker hsock
      obtain ⟨reply, after, closed, hdispatch⟩ : ∃ reply after closed,
          s.dispatch op fits = (reply, after, closed) := ⟨_, _, _, rfl⟩
      obtain ⟨hafter, -, hcallers, hanswers⟩ := halone.dispatch hdispatch
      rw [hdispatch] at hstep
      cases hstep
      rw [← hcallers] at hpc
      have hunderway : Underway after.stored ticket op [] ⟨[], reply.bytes.map (ticket, ·), closed⟩ :=
        .answered hanswers (List.nil_append _) reply_bytes_pos closed
      have hwait := hafter.wait (List.getElem?_eq_some_iff.mp hpc).1 (hafter.only hpc rfl) hunderway
        nofun
      obtain ⟨hc, hget⟩ := List.getElem?_eq_some_iff.mp hpc
      rw [moveTo, ← hget, List.set_getElem_self hc] at hwait
      exact hwait
  case h_2 => cases hstep

theorem Alone.act {s s' : ClientState} (halone : Alone s) {action : ClientAction}
    (hclear : s.overlaps action = false) (hstep : s.act action = some s') : Alone s' := by
  cases action with
  | call c op => exact halone.callStep hstep
  | connect c succeeds => exact halone.connectStep hstep
  | write c succeeds => exact halone.writeStep hclear hstep
  | read c n => exact halone.readStep hstep
  | fail c => exact halone.failStep hstep
  | serve fits => exact halone.serveStep hstep
  | store key value =>
      simp only [ClientState.act] at hstep
      split at hstep
      · rename_i hvalue
        cases hstep
        exact halone.put hvalue
      · cases hstep
  | evict key =>
      cases hstep
      exact halone.restock (fun entry hentry => halone.archive entry (List.mem_filter.mp hentry).1)
        (List.Subset.refl _)

/-- As long as no call writes its command while another one waits for its reply, every
caller gets what is its own. -/
theorem no_crosstalk {threads : ℕ} {s : ClientState}
    (hreach : Reaches act (fun s action => s.overlaps action = false) (initial threads) s) :
    NoCrossTalk s :=
  (hreach.invariant Alone (alone_initial threads) fun _ _ _ halone hclear hstep =>
    halone.act hclear hstep).clean

/-- Two keys with a value each, and two threads that ask for one of them. -/
def twoGets : List ClientAction :=
  [.store (ascii "a") (ascii "1"), .store (ascii "b") (ascii "2"),
    .call 0 (.get (ascii "a")), .connect 0 true, .call 1 (.get (ascii "b")), .connect 1 true]

/-- One after the other, both get their own. -/
theorem no_crosstalk_in_turn :
    ∃ s, Reaches act (fun s action => s.overlaps action = false) (initial 2) s ∧
      s.callers = [.returned 0 (.get (ascii "a")) ((respBulk (ascii "1")).map (0, ·))
          (some (ascii "1")),
        .returned 1 (.get (ascii "b")) ((respBulk (ascii "2")).map (1, ·)) (some (ascii "2"))] ∧
      NoCrossTalk s := by
  obtain ⟨s, hreach, hs⟩ := exists_reaches act (fun s action => s.overlaps action = false)
    (initial 2) (twoGets ++ [.write 0 true, .serve true, .read 0 3, .read 0 4, .write 1 true,
      .serve true, .read 1 7])
    (fun s => decide (s.callers =
      [.returned 0 (.get (ascii "a")) ((respBulk (ascii "1")).map (0, ·)) (some (ascii "1")),
        .returned 1 (.get (ascii "b")) ((respBulk (ascii "2")).map (1, ·)) (some (ascii "2"))]))
    (by decide +kernel)
  exact ⟨s, hreach, of_decide_eq_true hs, no_crosstalk hreach⟩

/-- Both commands are written before a reply is read, and the second thread reads first: it
gets the value of the first one's key.  Likewise a `set` reads the reply to another one. -/
theorem crosstalk :
    (∃ s, Reaches act Free (initial 2) s ∧
      (∃ buf, .returned 1 (.get (ascii "b")) buf (some (ascii "1")) ∈ s.callers) ∧
      (ascii "b", ascii "1") ∉ s.stored ∧ ¬ NoCrossTalk s) ∧
    ∃ s, Reaches act Free (initial 2) s ∧
      .returned 1 (.set (ascii "b") (ascii "2")) ((respSimple (ascii "OK")).map (0, ·)) none ∈
        s.callers ∧ ¬ NoCrossTalk s := by
  constructor
  · obtain ⟨s, hreach, hs⟩ := exists_reaches act Free (initial 2)
      (twoGets ++ [.write 0 true, .write 1 true, .serve true, .serve true, .read 1 7])
      (fun s => decide (.returned 1 (.get (ascii "b")) ((respBulk (ascii "1")).map (0, ·))
          (some (ascii "1")) ∈ s.callers) && decide ((ascii "b", ascii "1") ∉ s.stored))
      (by decide +kernel)
    simp only [Bool.and_eq_true, decide_eq_true_eq] at hs
    obtain ⟨hmem, hnot⟩ := hs
    exact ⟨s, hreach, ⟨_, hmem⟩, hnot, fun hclean => hnot (hclean _ hmem)⟩
  · obtain ⟨s, hreach, hs⟩ := exists_reaches act Free (initial 2)
      [.call 0 (.set (ascii "a") (ascii "1")), .connect 0 true,
        .call 1 (.set (ascii "b") (ascii "2")), .connect 1 true, .write 0 true, .write 1 true,
        .serve true, .serve true, .read 1 5]
      (fun s => decide (.returned 1 (.set (ascii "b") (ascii "2"))
        ((respSimple (ascii "OK")).map (0, ·)) none ∈ s.callers))
      (by decide +kernel)
    have hmem := of_decide_eq_true hs
    refine ⟨s, hreach, hmem, fun hclean => ?_⟩
    have hown : ∀ b ∈ (respSimple (ascii "OK")).map ((0, ·) : UInt8 → ℕ × UInt8), b.1 = 1 :=
      hclean _ hmem
    exact absurd (hown (0, 43) (by decide)) (by decide)

end ClientState

end Reame.Arca
