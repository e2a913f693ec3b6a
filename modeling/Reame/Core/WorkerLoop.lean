import Mathlib.Data.List.DropRight
import Reame.Core.Serving
import Reame.Foundation.Interleaving

/-!
# The worker thread and its callers

In parallel mode one thread runs `worker_loop`, which drives the scheduler, and every
caller of `generate_stream` submits a request and blocks until it is done.  They meet
at `work_mutex` and two condition variables: `work_cv` wakes the worker, `done_cv` the
callers.

The state has a program counter for each thread.  Evaluating a predicate of `wait`,
blocking (which releases the mutex in the same instant), `submit`, `step`, each
`finish` inside a `step` and each `notify_all` are actions of their own.  A `step`
holds the mutex of the scheduler until it returns, so that no `submit` comes in
between, but the requests it finishes are visible at once.
-/

namespace Reame.Core

open Scheduler Reame.Interleaving

/-- Where the worker is in `worker_loop`. -/
inductive WorkerPc (K : Type*)
  /-- Before the first lock. -/
  | starting
  /-- At `while (!stopping)`, with the lock. -/
  | atLoop
  /-- Before a `step`. -/
  | atStep
  /-- Inside a `step`: the state it will leave and what it will return. -/
  | stepping (next : SchedulerState K) (more : Bool)
  /-- Before `done_cv.notify_all()`. -/
  | stepped (more : Bool)
  /-- Before taking the lock back, after the last `step` or woken from `wait`. -/
  | locking
  /-- Before the predicate of `wait`, with the lock. -/
  | atPredicate
  /-- The predicate was false: about to release the lock and block. -/
  | aboutToBlock
  | blocked
  | exited

/-- Where a caller is in the parallel path of `generate_stream_impl`. -/
inductive CallerPc
  | outside
  /-- Before `work_cv.notify_all()`. -/
  | submitted (id : ℕ)
  | locking (id : ℕ)
  | atPredicate (id : ℕ)
  | aboutToBlock (id : ℕ)
  | blocked (id : ℕ)
deriving DecidableEq, Repr

/-- Where the destructor of `Impl` is. -/
inductive DestructorPc
  | notCalled
  /-- Before `work_cv.notify_all()`. -/
  | stopped
  | joining
deriving DecidableEq, Repr

/-- A thread blocked on `work_cv` wakes up to take the lock back. -/
def WorkerPc.notified {K : Type*} : WorkerPc K → WorkerPc K
  | .blocked => .locking
  | pc => pc

theorem WorkerPc.notified_of_ne {K : Type*} {pc : WorkerPc K} (hpc : pc ≠ .blocked) :
    pc.notified = pc := by
  cases pc <;> first | rfl | exact absurd rfl hpc

/-- A thread blocked on `done_cv` wakes up to take the lock back. -/
def CallerPc.notified : CallerPc → CallerPc
  | .blocked id => .locking id
  | pc => pc

/-- The members of `ReameEngine::Impl` that parallel serving uses, and the threads. -/
structure ParallelState (K : Type*) where
  sched : SchedulerState K
  stopping : Bool
  /-- Whether some thread holds `work_mutex`. -/
  locked : Bool
  worker : WorkerPc K
  callers : List CallerPc
  destructor : DestructorPc

/-- What can happen next. -/
inductive ParallelAction (K : Type*)
  /-- The worker takes its next step. -/
  | worker
  /-- A `finish` inside the `step` under way. -/
  | finish
  /-- A spurious wake-up of the worker. -/
  | wakeWorker
  /-- A call of `generate_stream_impl`, up to its `submit`. -/
  | call (c : ℕ) (prompt : List TokenId) (gen : GenerationConfig K) (onToken : TokenCallback)
  /-- The caller takes its next step. -/
  | caller (c : ℕ)
  /-- A spurious wake-up of a caller. -/
  | wakeCaller (c : ℕ)
  | destructor

namespace ParallelState

variable {K : Type*} [Field K] [LinearOrder K] (scheduler : Scheduler K)

/-- A new engine, and as many threads that may call it. -/
def initial (threads : ℕ) : ParallelState K where
  sched := scheduler.initial
  stopping := false
  locked := false
  worker := .starting
  callers := List.replicate threads .outside
  destructor := .notCalled

/-- `worker_loop`, from one atomic step to the next. -/
def workerStep (s : ParallelState K) : Option (ParallelState K) :=
  match s.worker with
  | .starting =>
      if s.locked then none
      else some { s with locked := true, worker := .atLoop }
  | .atLoop =>
      some { s with locked := false, worker := if s.stopping then .exited else .atStep }
  | .atStep =>
      let (next, more) := scheduler.step s.sched
      some { s with worker := .stepping next more }
  | .stepping next more => some { s with sched := next, worker := .stepped more }
  | .stepped more =>
      some { s with
        callers := s.callers.map CallerPc.notified
        worker := if more then .atStep else .locking }
  | .locking =>
      if s.locked then none
      else some { s with locked := true, worker := .atPredicate }
  | .atPredicate =>
      some { s with worker := if s.stopping || !idle s.sched then .atLoop else .aboutToBlock }
  | .aboutToBlock => some { s with locked := false, worker := .blocked }
  | .blocked => none
  | .exited => none

/-- The next request that the `step` under way finishes becomes visible. -/
def finishStep (s : ParallelState K) : Option (ParallelState K) :=
  match s.worker with
  | .stepping next _ =>
      some { s with sched.done := next.done.rtake (s.sched.done.length + 1) }
  | _ => none

/-- A `submit` of a thread that is not in a call; it throws as `submit` does. -/
def callStep (s : ParallelState K) (c : ℕ) (prompt : List TokenId) (gen : GenerationConfig K)
    (onToken : TokenCallback) : Option (ParallelState K) :=
  match s.worker, s.callers[c]? with
  | .stepping _ _, _ => none
  | _, some .outside =>
      match scheduler.submit s.sched prompt gen (some onToken) with
      | .error _ => some s
      | .ok (id, sched) => some { s with sched, callers := s.callers.set c (.submitted id) }
  | _, _ => none

/-- The parallel path of `generate_stream_impl` after `submit`, from one atomic step to
the next. -/
def callerStep (s : ParallelState K) (c : ℕ) : Option (ParallelState K) :=
  match s.callers[c]? with
  | some (.submitted id) =>
      some { s with worker := s.worker.notified, callers := s.callers.set c (.locking id) }
  | some (.locking id) =>
      if s.locked then none
      else some { s with locked := true, callers := s.callers.set c (.atPredicate id) }
  | some (.atPredicate id) =>
      if finished s.sched id || s.stopping then
        some { s with locked := false, callers := s.callers.set c .outside }
      else some { s with callers := s.callers.set c (.aboutToBlock id) }
  | some (.aboutToBlock id) =>
      some { s with locked := false, callers := s.callers.set c (.blocked id) }
  | _ => none

/-- `~Impl`. -/
def destructorStep (s : ParallelState K) : Option (ParallelState K) :=
  match s.destructor with
  | .notCalled =>
      if s.locked then none
      else some { s with stopping := true, destructor := .stopped }
  | .stopped => some { s with worker := s.worker.notified, destructor := .joining }
  | .joining => none

/-- One atomic step of one thread. -/
def act (s : ParallelState K) : ParallelAction K → Option (ParallelState K)
  | .worker => workerStep scheduler s
  | .finish => finishStep s
  | .wakeWorker => some { s with worker := s.worker.notified }
  | .call c prompt gen onToken => callStep scheduler s c prompt gen onToken
  | .caller c => callerStep s c
  | .wakeCaller c =>
      match s.callers[c]? with
      | some (.blocked id) => some { s with callers := s.callers.set c (.locking id) }
      | _ => none
  | .destructor => destructorStep s

/-! ## Lost wake-ups -/

end ParallelState

/-- The thread is past its predicate, and only a `notify_all` gets it back. -/
def WorkerPc.waits {K : Type*} : WorkerPc K → Bool
  | .aboutToBlock | .blocked => true
  | _ => false

/-- The thread is blocked on `work_cv`. -/
def WorkerPc.isBlocked {K : Type*} : WorkerPc K → Bool
  | .blocked => true
  | _ => false

theorem WorkerPc.isBlocked_iff {K : Type*} {pc : WorkerPc K} :
    pc.isBlocked = true ↔ pc = .blocked := by
  cases pc <;> simp [isBlocked]

/-- A `notify_all` of the worker is still to come for what it has done. -/
def WorkerPc.owesNotify {K : Type*} : WorkerPc K → Bool
  | .stepping .. | .stepped _ => true
  | _ => false

/-- The request whose end the thread waits for, past its predicate. -/
def CallerPc.waitsFor : CallerPc → Option ℕ
  | .aboutToBlock id | .blocked id => some id
  | _ => none

/-- The `notify_all` of the caller's `submit` is still to come. -/
def CallerPc.owesNotify : CallerPc → Bool
  | .submitted _ => true
  | _ => false

namespace ParallelState

variable {K : Type*} [Field K] [LinearOrder K] {scheduler : Scheduler K}

/-- Some `notify_all` is still to be executed. -/
def NotifyPending (s : ParallelState K) : Prop :=
  (∃ pc ∈ s.callers, pc.owesNotify) ∨ s.worker.owesNotify ∨ s.destructor = .stopped

instance (s : ParallelState K) : Decidable s.NotifyPending :=
  inferInstanceAs (Decidable (_ ∨ _ ∨ _))

/-- With nothing left to be notified, a blocked worker has nothing to do and leaves no
caller behind whose request is finished. -/
def NoLostWakeup (s : ParallelState K) : Prop :=
  s.stopping = false → ¬ s.NotifyPending →
    ¬ (s.worker = .blocked ∧ idle s.sched = false) ∧
      ∀ id, ¬ (.blocked id ∈ s.callers ∧ finished s.sched id = true ∧ s.worker = .blocked)

/-- The action is a `notify_all` that falls between a thread's predicate and its
blocking, although the predicate has become true and no other notification is on its
way: the last caller to notify `work_cv` finds the worker there, or the worker notifies
`done_cv` for the last time and finds a caller there. -/
def missed (s : ParallelState K) : ParallelAction K → Bool
  | .caller c =>
      match s.worker, s.callers[c]? with
      | .aboutToBlock, some (.submitted _) =>
          !s.stopping && !idle s.sched && (s.callers.eraseIdx c).all (!·.owesNotify)
      | _, _ => false
  | .worker =>
      match s.worker with
      | .stepped false =>
          !s.stopping && idle s.sched && s.callers.any fun pc =>
            match pc with
            | .aboutToBlock id => finished s.sched id
            | _ => false
      | _ => false
  | _ => false

/-- The worker will notify `done_cv` before it can block. -/
def busy (s : ParallelState K) : Bool :=
  match s.worker with
  | .starting | .atLoop | .atStep | .stepping .. | .stepped _ => true
  | .locking | .atPredicate => !idle s.sched
  | .aboutToBlock | .blocked | .exited => false

/-- Whoever waits will be notified. -/
structure Attended (s : ParallelState K) : Prop where
  worker : s.worker.waits → idle s.sched = true ∨ ∃ pc ∈ s.callers, pc.owesNotify
  callers : ∀ pc ∈ s.callers, ∀ id, pc.waitsFor = some id → finished s.sched id = true → s.busy

omit [Field K] [LinearOrder K] in
theorem Attended.noLostWakeup {s : ParallelState K} (hattended : Attended s) : NoLostWakeup s := by
  intro _ hnone
  refine ⟨fun ⟨hblocked, hwork⟩ => ?_, fun id ⟨hmem, hfinished, hblocked⟩ => ?_⟩
  · rcases hattended.worker (by rw [hblocked]; rfl) with hidle | howes
    · rw [hwork] at hidle
      cases hidle
    · exact hnone (.inl howes)
  · have hbusy := hattended.callers _ hmem id rfl hfinished
    simp [busy, hblocked] at hbusy

/-! ### What each thread keeps -/

theorem attended_initial (threads : ℕ) : Attended (initial scheduler threads) where
  worker hwaits := by cases hwaits
  callers pc hmem id hwaits _ := by
    rw [List.eq_of_mem_replicate hmem] at hwaits
    cases hwaits

/-- A caller moves from a program counter that owes no notification: those that others
owe remain. -/
theorem exists_owesNotify_set {callers : List CallerPc} {c : ℕ} {pc pc' : CallerPc}
    (hpc : callers[c]? = some pc) (howes : pc.owesNotify = false)
    (hexists : ∃ pc ∈ callers, pc.owesNotify) : ∃ pc ∈ callers.set c pc', pc.owesNotify := by
  obtain ⟨other, hmem, hother⟩ := hexists
  obtain ⟨c', hc'⟩ := List.mem_iff_getElem?.mp hmem
  have hne : c ≠ c' := by
    rintro rfl
    rw [hpc, Option.some.injEq] at hc'
    rw [← hc', howes] at hother
    cases hother
  exact ⟨other, List.mem_iff_getElem?.mpr ⟨c', by rw [List.getElem?_set_ne hne, hc']⟩, hother⟩

omit [Field K] [LinearOrder K] in
/-- `done_cv.notify_all()` wakes the blocked callers; one about to block is served only
if the worker goes on. -/
theorem attended_notifyCallers {s : ParallelState K} {more : Bool}
    (hpc : s.worker = .stepped more) (hrunning : s.stopping = false)
    (hmissed : missed s .worker = false) :
    Attended { s with
      callers := s.callers.map CallerPc.notified
      worker := if more then .atStep else .locking } where
  worker hwaits := by cases more <;> cases hwaits
  callers pc hmem id hwaits hfinished := by
    obtain ⟨before, hbefore, rfl⟩ := List.mem_map.mp hmem
    cases before with
    | aboutToBlock id' =>
        cases hwaits
        cases more with
        | true => rfl
        | false =>
            cases hidle : idle s.sched with
            | true =>
                simp only [missed, hpc, hrunning, hidle, Bool.not_false, Bool.true_and,
                  List.any_eq_false] at hmissed
                exact absurd hfinished (hmissed _ hbefore)
            | false => simp [busy, hidle]
    | _ => cases hwaits

theorem Attended.workerStep {s s' : ParallelState K} (hattended : Attended s)
    (hrunning : s'.stopping = false) (hmissed : missed s .worker = false)
    (hstep : workerStep scheduler s = some s') : Attended s' := by
  unfold ParallelState.workerStep at hstep
  split at hstep
  case h_1 hpc =>
      split at hstep
      · cases hstep
      · cases hstep
        exact ⟨nofun, fun _ _ _ _ _ => rfl⟩
  case h_2 hpc =>
      cases hstep
      have hrunning : s.stopping = false := hrunning
      simp only [hrunning]
      exact ⟨nofun, fun _ _ _ _ _ => rfl⟩
  case h_3 hpc =>
      cases hstep
      exact ⟨nofun, fun _ _ _ _ _ => rfl⟩
  case h_4 hpc =>
      cases hstep
      exact ⟨nofun, fun _ _ _ _ _ => rfl⟩
  case h_5 more hpc =>
      cases hstep
      exact attended_notifyCallers hpc hrunning hmissed
  case h_6 hpc =>
      split at hstep
      · cases hstep
      · cases hstep
        refine ⟨nofun, fun pc hmem id hwaits hfinished => ?_⟩
        have hbusy := hattended.callers pc hmem id hwaits hfinished
        simpa [busy, hpc] using hbusy
  case h_7 hpc =>
      cases hstep
      have hrunning : s.stopping = false := hrunning
      cases hidle : idle s.sched with
      | false => exact ⟨by simp [hrunning, WorkerPc.waits], by simp [hrunning, busy]⟩
      | true =>
          refine ⟨fun _ => .inl hidle, fun pc hmem id hwaits hfinished => ?_⟩
          have hbusy := hattended.callers pc hmem id hwaits hfinished
          simp [busy, hpc, hidle] at hbusy
  case h_8 hpc =>
      cases hstep
      refine ⟨fun _ => hattended.worker (by rw [hpc]; rfl), fun pc hmem id hwaits hfinished => ?_⟩
      have hbusy := hattended.callers pc hmem id hwaits hfinished
      simp [busy, hpc] at hbusy
  case h_9 hpc => cases hstep
  case h_10 hpc => cases hstep

omit [Field K] [LinearOrder K] in
theorem attended_finishStep {s s' : ParallelState K} (hstep : finishStep s = some s') :
    Attended s' := by
  unfold ParallelState.finishStep at hstep
  split at hstep
  case h_1 next more hpc =>
      cases hstep
      exact ⟨by simp [hpc, WorkerPc.waits], by simp [busy, hpc]⟩
  case h_2 => cases hstep

omit [Field K] [LinearOrder K] in
/-- A wake-up of the worker, whoever notifies it. -/
theorem Attended.wakeWorker {s : ParallelState K} (hattended : Attended s) :
    Attended { s with worker := s.worker.notified } := by
  by_cases hpc : s.worker = .blocked
  · refine ⟨by simp [hpc, WorkerPc.notified, WorkerPc.waits], fun pc hmem id hwaits hfinished => ?_⟩
    have hbusy := hattended.callers pc hmem id hwaits hfinished
    simp [busy, hpc] at hbusy
  · rw [WorkerPc.notified_of_ne hpc]
    exact hattended

omit [Field K] [LinearOrder K] in
/-- A caller moves on, and does not wait for a finished request where it gets to. -/
theorem Attended.moveCaller {s : ParallelState K} (hattended : Attended s) {c : ℕ}
    {pc pc' : CallerPc} {locked : Bool} (hpc : s.callers[c]? = some pc)
    (howes : pc.owesNotify = false)
    (hwaits : ∀ id, pc'.waitsFor = some id → finished s.sched id = false ∨ pc.waitsFor = some id) :
    Attended { s with locked, callers := s.callers.set c pc' } where
  worker hwaits' := (hattended.worker hwaits').imp_right (exists_owesNotify_set hpc howes)
  callers other hmem id hother hfinished := by
    rcases List.mem_or_eq_of_mem_set hmem with hold | rfl
    · exact hattended.callers other hold id hother hfinished
    · rcases hwaits id hother with hnot | hbefore
      · rw [hnot] at hfinished
        cases hfinished
      · exact hattended.callers pc (List.mem_of_getElem? hpc) id hbefore hfinished

theorem mem_set_of_mem_eraseIdx {callers : List CallerPc} {c : ℕ} {pc pc' : CallerPc}
    (hmem : pc ∈ callers.eraseIdx c) : pc ∈ callers.set c pc' := by
  obtain ⟨k, hne, hk⟩ := List.mem_eraseIdx_iff_getElem?.mp hmem
  exact List.mem_iff_getElem?.mpr ⟨k, by rw [List.getElem?_set_ne hne.symm, hk]⟩

omit [Field K] [LinearOrder K] in
/-- `work_cv.notify_all()` wakes a blocked worker; one about to block goes on only if
there is nothing to do or someone else notifies. -/
theorem Attended.notifyWorker {s : ParallelState K} (hattended : Attended s) {c id : ℕ}
    (hpc : s.callers[c]? = some (.submitted id)) (hrunning : s.stopping = false)
    (hmissed : missed s (.caller c) = false) :
    Attended { s with
      worker := s.worker.notified
      callers := s.callers.set c (.locking id) } where
  worker hwaits := by
    have habout : s.worker = .aboutToBlock := by
      cases hworker : s.worker <;> simp_all [WorkerPc.notified, WorkerPc.waits]
    by_contra hnone
    obtain ⟨hwork, hnone⟩ := not_or.mp hnone
    have hwork : idle s.sched = false := by simpa using hwork
    obtain ⟨other, hmem, howes⟩ : ∃ pc ∈ s.callers.eraseIdx c, pc.owesNotify := by
      simpa [missed, habout, hpc, hrunning, hwork] using hmissed
    exact hnone ⟨other, mem_set_of_mem_eraseIdx hmem, howes⟩
  callers pc hmem id' hwaits hfinished := by
    rcases List.mem_or_eq_of_mem_set hmem with hold | rfl
    · exact hattended.wakeWorker.callers pc hold id' hwaits hfinished
    · cases hwaits

omit [Field K] [LinearOrder K] in
/-- A submission leaves work to do. -/
theorem Attended.enqueue {s : ParallelState K} (hattended : Attended s) {c id nextId : ℕ}
    {pending : List (Request K)} (hpending : pending ≠ []) (hc : c < s.callers.length) :
    Attended { s with
      sched := { s.sched with pending, nextId }
      callers := s.callers.set c (.submitted id) } where
  worker _ := .inr ⟨_, List.mem_set hc _, rfl⟩
  callers pc hmem id hwaits hfinished := by
    rcases List.mem_or_eq_of_mem_set hmem with hold | rfl
    · have hbusy := hattended.callers pc hold id hwaits hfinished
      have hwork : idle { s.sched with pending, nextId } = false := by simp [idle, hpending]
      cases hworker : s.worker <;> simp_all [busy]
    · cases hwaits

theorem Attended.callStep {s s' : ParallelState K} (hattended : Attended s) {c : ℕ}
    {prompt : List TokenId} {gen : GenerationConfig K} {onToken : TokenCallback}
    (hstep : callStep scheduler s c prompt gen onToken = some s') : Attended s' := by
  unfold ParallelState.callStep at hstep
  split at hstep
  · cases hstep
  · rename_i hpc _
    rcases submit_cases scheduler s.sched prompt gen (some onToken) with
      ⟨fault, hsubmit⟩ | ⟨callback, sched, -, hsubmit, -, -, hsched⟩
    · simp only [hsubmit] at hstep
      cases hstep
      exact hattended
    · simp only [hsubmit] at hstep
      cases hstep
      rw [hsched]
      exact hattended.enqueue (by simp) (List.getElem?_eq_some_iff.mp hpc).1
  · cases hstep

omit [Field K] [LinearOrder K] in
theorem Attended.callerStep {s s' : ParallelState K} (hattended : Attended s) {c : ℕ}
    (hrunning : s'.stopping = false) (hmissed : missed s (.caller c) = false)
    (hstep : callerStep s c = some s') : Attended s' := by
  unfold ParallelState.callerStep at hstep
  split at hstep
  case h_1 id hpc =>
      cases hstep
      exact hattended.notifyWorker hpc hrunning hmissed
  case h_2 id hpc =>
      split at hstep
      · cases hstep
      · cases hstep
        exact hattended.moveCaller hpc rfl fun id' hwaits => by cases hwaits
  case h_3 id hpc =>
      split at hstep
      · cases hstep
        exact hattended.moveCaller hpc rfl fun id' hwaits => by cases hwaits
      · rename_i hfalse
        cases hstep
        refine hattended.moveCaller hpc rfl fun id' hwaits => ?_
        cases hwaits
        exact .inl (by simp_all)
  case h_4 id hpc =>
      cases hstep
      exact hattended.moveCaller hpc rfl fun id' hwaits => .inr hwaits
  case h_5 => cases hstep

theorem Attended.act {s s' : ParallelState K} (hattended : Attended s)
    (hrunning : s'.stopping = false) {action : ParallelAction K} (hmissed : missed s action = false)
    (hstep : act scheduler s action = some s') : Attended s' := by
  cases action with
  | worker => exact hattended.workerStep hrunning hmissed hstep
  | finish => exact attended_finishStep hstep
  | wakeWorker =>
      cases hstep
      exact hattended.wakeWorker
  | call c prompt gen onToken => exact hattended.callStep hstep
  | caller c => exact hattended.callerStep hrunning hmissed hstep
  | wakeCaller c =>
      simp only [ParallelState.act] at hstep
      split at hstep
      · rename_i id hpc
        cases hstep
        exact hattended.moveCaller hpc rfl fun id' hwaits => by cases hwaits
      · cases hstep
  | destructor =>
      simp only [ParallelState.act, destructorStep] at hstep
      split at hstep
      · split at hstep
        · cases hstep
        · cases hstep
          cases hrunning
      · cases hstep
        exact ⟨hattended.wakeWorker.worker, hattended.wakeWorker.callers⟩
      · cases hstep

/-- Once stopped, always stopped. -/
theorem stopping_of_act {s s' : ParallelState K} {action : ParallelAction K}
    (hstep : act scheduler s action = some s') (hrunning : s'.stopping = false) :
    s.stopping = false := by
  cases action <;>
    grind [act, ParallelState.workerStep, ParallelState.finishStep, ParallelState.callStep,
      ParallelState.callerStep, destructorStep]

/-- As long as no notification falls between the predicate of a thread and its blocking,
none is lost. -/
theorem no_lost_wakeup {threads : ℕ} {s : ParallelState K}
    (hreach : Reaches (act scheduler) (fun s action => missed s action = false)
      (initial scheduler threads) s) : NoLostWakeup s := by
  have hattended : s.stopping = false → Attended s := by
    refine hreach.invariant (fun s => s.stopping = false → Attended s)
      (fun _ => attended_initial threads) ?_
    intro s action s' hattended hmissed hstep hrunning
    exact (hattended (stopping_of_act hstep hrunning)).act hrunning hmissed hstep
  exact fun hrunning => (hattended hrunning).noLostWakeup hrunning

/-! ### Two runs -/

/-- A scheduler for two requests over the two-token backend. -/
def twoSlots : Scheduler ℚ := ⟨.rational, twoTokenBackend 8 (by decide) fun _ _ => none, 2⟩

/-- A new worker finds nothing to do, and its predicate false. -/
def workerIdles : List (ParallelAction ℚ) := List.replicate 7 .worker

/-- A call for one token. -/
def callOneToken (c : ℕ) : ParallelAction ℚ := .call c [0] (greedyConfig 1) fun _ => .keepGoing

/-- A call that comes while the worker is blocked is served, its caller woken, and the
worker blocks again. -/
theorem no_lost_wakeup_one_call :
    ∃ s, Reaches (act twoSlots) (fun s action => missed s action = false) (initial twoSlots 1) s ∧
      s.stopping = false ∧ finished s.sched 1 = true ∧ s.callers = [.locking 1] ∧
      s.worker.waits = true ∧ NoLostWakeup s := by
  obtain ⟨s, hreach, hs⟩ := exists_reaches (act twoSlots) (fun s action => missed s action = false)
    (initial twoSlots 1)
    (workerIdles ++ [.worker, callOneToken 0, .caller 0, .caller 0, .caller 0, .caller 0,
      .worker, .worker, .worker, .worker, .finish, .worker, .worker, .worker, .worker, .worker])
    (fun s => !s.stopping && finished s.sched 1 && s.callers == [.locking 1] && s.worker.waits)
    (by decide +kernel)
  simp only [Bool.and_eq_true, Bool.not_eq_eq_eq_not, Bool.not_true, beq_iff_eq] at hs
  obtain ⟨⟨⟨hrunning, hfinished⟩, hcallers⟩, hwaits⟩ := hs
  exact ⟨s, hreach, hrunning, hfinished, hcallers, hwaits, no_lost_wakeup hreach⟩

/-- A call whose `submit` and `notify_all` fall between the worker's predicate and its
blocking is never served: the worker blocks with the request pending, and the caller
blocks behind it.  And a worker that notifies between a caller's predicate and its
blocking, and then blocks, leaves the caller behind with its request finished. -/
theorem lost_wakeups :
    (∃ s, Reaches (act twoSlots) Free (initial twoSlots 1) s ∧ s.stopping = false ∧
      ¬ s.NotifyPending ∧ s.worker = .blocked ∧ idle s.sched = false ∧ ¬ NoLostWakeup s) ∧
    ∃ s, Reaches (act twoSlots) Free (initial twoSlots 1) s ∧ s.stopping = false ∧
      ¬ s.NotifyPending ∧ s.worker = .blocked ∧ .blocked 1 ∈ s.callers ∧
      finished s.sched 1 = true ∧ ¬ NoLostWakeup s := by
  constructor
  · obtain ⟨s, hreach, hs⟩ := exists_reaches (act twoSlots) Free (initial twoSlots 1)
      (workerIdles ++ [callOneToken 0, .caller 0, .worker, .caller 0, .caller 0, .caller 0])
      (fun s => !s.stopping && !decide s.NotifyPending && s.worker.isBlocked && !idle s.sched)
      (by decide +kernel)
    simp only [Bool.and_eq_true, Bool.not_eq_eq_eq_not, Bool.not_true, decide_eq_false_iff_not,
      WorkerPc.isBlocked_iff] at hs
    obtain ⟨⟨⟨hrunning, hnone⟩, hblocked⟩, hwork⟩ := hs
    exact ⟨s, hreach, hrunning, hnone, hblocked, hwork,
      fun hnot => (hnot hrunning hnone).1 ⟨hblocked, hwork⟩⟩
  · obtain ⟨s, hreach, hs⟩ := exists_reaches (act twoSlots) Free (initial twoSlots 1)
      ([.worker, .worker, callOneToken 0, .caller 0, .caller 0, .caller 0] ++
        List.replicate 3 .worker ++ [.caller 0] ++ List.replicate 3 .worker)
      (fun s => !s.stopping && !decide s.NotifyPending && s.worker.isBlocked &&
        decide (.blocked 1 ∈ s.callers) && finished s.sched 1)
      (by decide +kernel)
    simp only [Bool.and_eq_true, Bool.not_eq_eq_eq_not, Bool.not_true, decide_eq_false_iff_not,
      decide_eq_true_eq, WorkerPc.isBlocked_iff] at hs
    obtain ⟨⟨⟨⟨hrunning, hnone⟩, hblocked⟩, hcaller⟩, hfinished⟩ := hs
    exact ⟨s, hreach, hrunning, hnone, hblocked, hcaller, hfinished,
      fun hnot => (hnot hrunning hnone).2 1 ⟨hcaller, hfinished, hblocked⟩⟩

end ParallelState

end Reame.Core
