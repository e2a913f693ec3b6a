import Reame.Server.Shutdown

/-!
# The daemon's `stop` may wait for ever

`ArcaServer::stop` shuts down the sockets in `conns`, and then waits for all threads.  But a
connection is counted before its thread has got to `conns`: a socket that gets there late is
passed over, and its thread waits for a client that may stay silent and connected.

`stop_may_hang_iff` says when: a call of `stop` can come to rest without being back exactly if
a connection is `Late` when it begins.  `Late` is kept until the sockets are shut down
(`Missing`), and from there on the late thread stands in the way (`Waiting`).  Without a late
connection the call stays on its way back (`Returning`).
-/

namespace Reame.Server

open Interleaving

/-- What a step can make of a thread: it goes on, and what has happened to its socket stays. -/
structure Thread.Becomes (t t' : Thread) : Prop where
  spawned : t'.pc = .spawned → t.pc = .spawned ∧ t'.shut = t.shut
  serving : t'.pc = .serving → t.pc = .spawned ∨ t.pc = .serving
  shut : t.shut = true → t'.shut = true
  hungUp : t.hungUp = true → t'.hungUp = true

theorem becomes_self (t : Thread) : t.Becomes t := ⟨fun h => ⟨h, rfl⟩, .inr, id, id⟩

theorem becomes_shutdown (t : Thread) : t.Becomes t.shutdown := by
  rw [Thread.shutdown]
  split
  · rename_i hpc
    exact ⟨fun h => absurd (hpc.symm.trans h) (by decide), fun _ => .inr hpc, fun _ => rfl, id⟩
  · exact becomes_self t

theorem becomes_step {t t' : Thread} {a : ThreadAction} (hstep : t.step a = some t') :
    t.Becomes t' := by
  cases a with
  | register =>
      rw [Thread.step] at hstep
      split at hstep
      · rename_i hpc
        cases hstep
        exact ⟨ThreadPc.noConfusion, fun _ => .inl hpc, id, id⟩
      · cases hstep
  | read n leaves =>
      rw [Thread.step] at hstep
      split at hstep
      · rename_i hpc
        cases hstep
        cases leaves
        · exact ⟨ThreadPc.noConfusion, fun _ => .inr hpc.1, id, id⟩
        · exact ⟨ThreadPc.noConfusion, ThreadPc.noConfusion, id, id⟩
      · cases hstep
  | readFails | exit =>
      rw [Thread.step] at hstep
      split at hstep
      · cases hstep
        exact ⟨ThreadPc.noConfusion, ThreadPc.noConfusion, id, id⟩
      · cases hstep

/-- A connection was accepted and has no thread yet, and its client has not hung up. -/
def AcceptPc.Arrives : AcceptPc → Prop
  | .counted client => client.hungUp = false
  | _ => False

instance : DecidablePred AcceptPc.Arrives
  | .counted client => inferInstanceAs (Decidable (client.hungUp = false))
  | .atLoop | .inBody | .finished => inferInstanceAs (Decidable False)

namespace Lifetime

variable {program : List StopAction} {s s' : Lifetime}

/-- What a client can make of its connection. -/
theorem threads_clientStep {change : Bool → Client → Option Client} {place : Place}
    (hchange : ∀ shut client client', change shut client = some client' →
      client.hungUp = true → client'.hungUp = true)
    (hstep : s.clientStep change place = some s') {t' : Thread} (ht' : t' ∈ s'.threads) :
    ∃ t ∈ s.threads, t.Becomes t' := by
  obtain ⟨k, client, rfl⟩ | ⟨client, client', -, -, rfl⟩ | ⟨i, t, client, hi, hclient, rfl⟩ :=
    clientStep_cases hstep
  · exact ⟨t', ht', becomes_self t'⟩
  · exact ⟨t', ht', becomes_self t'⟩
  · rcases List.mem_or_eq_of_mem_set ht' with hbefore | rfl
    · exact ⟨t', hbefore, becomes_self t'⟩
    · exact ⟨t, List.mem_of_getElem? hi,
        ⟨fun h => ⟨h, rfl⟩, .inr, id, hchange t.shut t.toClient client hclient⟩⟩

/-- Every thread is a new one, or was there before. -/
theorem threads_act {a : LifeAction} (hstep : s.act program a = some s') {t' : Thread}
    (ht' : t' ∈ s'.threads) :
    (∃ client, s.accept = .counted client ∧ t' = { toClient := client }) ∨
      ∃ t ∈ s.threads, t.Becomes t' := by
  cases a with
  | connect =>
      cases hstep
      exact .inr ⟨t', ht', becomes_self t'⟩
  | send place n =>
      refine .inr (threads_clientStep (fun shut client client' hsend hhung => ?_) hstep ht')
      rw [Client.send, hhung, Bool.or_true, if_pos rfl] at hsend
      cases hsend
  | hangUp place =>
      have hhangs : s.clientStep (fun _ => Client.hangUp) place = some s' := hstep
      refine .inr (threads_clientStep (fun shut client client' hhang _ => ?_) hhangs ht')
      cases hhang
      rfl
  | accept =>
      rcases acceptStep_cases hstep with ⟨-, rfl⟩ | ⟨_, _, -, -, -, rfl⟩ | ⟨-, -, rfl⟩ |
        ⟨client, haccept, rfl⟩
      · exact .inr ⟨t', ht', becomes_self t'⟩
      · exact .inr ⟨t', ht', becomes_self t'⟩
      · exact .inr ⟨t', ht', becomes_self t'⟩
      · rcases List.mem_append.mp ht' with hbefore | hnew
        · exact .inr ⟨t', hbefore, becomes_self t'⟩
        · exact .inl ⟨client, haccept, List.mem_singleton.mp hnew⟩
  | thread i a =>
      obtain ⟨t, u, hi, hu, rfl⟩ := threadStep_cases hstep
      rcases List.mem_or_eq_of_mem_set ht' with hbefore | rfl
      · exact .inr ⟨t', hbefore, becomes_self t'⟩
      · exact .inr ⟨t, List.mem_of_getElem? hi, becomes_step hu⟩
  | callStop c =>
      obtain ⟨-, ⟨-, rfl⟩ | ⟨-, rfl⟩⟩ := callStopStep_cases hstep <;>
        exact .inr ⟨t', ht', becomes_self t'⟩
  | stop c =>
      obtain ⟨todo, pc, -, hstopping⟩ := stopping_of_stopStep hstep
      cases hstopping with
      | shutdown todo =>
          obtain ⟨t, ht, rfl⟩ := List.mem_map.mp ht'
          exact .inr ⟨t, ht, becomes_shutdown t⟩
      | _ => exact .inr ⟨t', ht', becomes_self t'⟩

/-- `stop` shuts no socket down that is not in `conns`. -/
theorem unshut_of_reaches {callers : ℕ}
    (hreach : Reaches (act program) Free (started callers) s) :
    ∀ t ∈ s.threads, t.pc = .spawned → t.shut = false := by
  refine hreach.invariant (fun s => ∀ t ∈ s.threads, t.pc = .spawned → t.shut = false)
    nofun fun s a s' hs _ hstep t' ht' hspawned => ?_
  rcases threads_act hstep ht' with ⟨client, -, rfl⟩ | ⟨t, ht, hbecomes⟩
  · rfl
  · obtain ⟨hbefore, hsame⟩ := hbecomes.spawned hspawned
    rw [hsame, hs t ht hbefore]

/-- A connection is on its way to a thread that is not in `conns` yet, and its client has not
hung up. -/
def Late (s : Lifetime) : Prop :=
  (∃ t ∈ s.threads, t.pc = .spawned ∧ t.hungUp = false) ∨ s.accept.Arrives ∨
    s.accept = .inBody ∧ s.acceptorOpen = true ∧ ∃ client ∈ s.backlog.head?, client.hungUp = false

instance : DecidablePred Late := fun s => by unfold Late; infer_instance

/-- What is left of a call of the daemon's `stop` is an end of what it does. -/
theorem suffix_of_reaches {callers : ℕ}
    (hreach : Reaches (act arcaStop) Free (started callers) s) :
    ∀ c todo, s.Stops c todo → todo <:+ arcaStop := by
  refine hreach.invariant (fun s => ∀ c todo, s.Stops c todo → todo <:+ arcaStop)
    (fun c todo hstops => ?_) fun s a s' hs _ hstep c todo hstops => ?_
  · exact absurd hstops ((sane_started arcaStop callers).running rfl c todo)
  · by_cases hcall : ∃ c', a = .callStop c'
    · obtain ⟨c', rfl⟩ := hcall
      obtain ⟨-, ⟨-, rfl⟩ | ⟨-, rfl⟩⟩ := callStopStep_cases hstep
      · rcases stops_moved rfl hstops with ⟨-, htodo⟩ | ⟨-, hbefore⟩
        · cases htodo
          exact List.suffix_rfl
        · exact hs c todo hbefore
      · rcases stops_moved rfl hstops with ⟨-, htodo⟩ | ⟨-, hbefore⟩
        · cases htodo
        · exact hs c todo hbefore
    · by_cases hstop : ∃ c', a = .stop c'
      · obtain ⟨c', rfl⟩ := hstop
        obtain ⟨before, pc, hc, hstopping⟩ := stopping_of_stopStep hstep
        rcases stops_moved hstopping.callers_eq.1 hstops with ⟨rfl, htodo⟩ | ⟨-, hbefore⟩
        · have hsuffix := hs c before (by rw [Stops, hc]; rfl)
          cases hstopping with
          | poll k todo =>
              have hlimited := hsuffix.subset List.mem_cons_self
              simp [arcaStop] at hlimited
          | back =>
              cases htodo
              exact hsuffix
          | _ =>
              cases htodo
              exact (List.suffix_cons _ _).trans hsuffix
        · exact hs c todo hbefore
      · rw [Stops, (callers_act (not_exists.mp hcall) (not_exists.mp hstop) hstep).1] at hstops
        exact hs c todo hstops

/-- The five ends. -/
theorem arcaStop_suffixes {todo : List StopAction} (hsuffix : todo <:+ arcaStop) :
    todo = arcaStop ∨ todo = [.close, .shutdown, .drain none] ∨ todo = [.shutdown, .drain none] ∨
      todo = [.drain none] ∨ todo = [] := by
  simpa [arcaStop, List.suffix_cons_iff] using hsuffix

theorem late_acceptStep (hrunning : s.running = false) (hstep : s.acceptStep = some s') :
    Late s' ↔ Late s := by
  rcases acceptStep_cases hstep with ⟨haccept, rfl⟩ |
    ⟨client, later, haccept, hopen, hpending, rfl⟩ | ⟨haccept, hnone, rfl⟩ | ⟨client, haccept, rfl⟩
  · simp [Late, haccept, hrunning, AcceptPc.Arrives]
  · simp [Late, haccept, hopen, hpending, AcceptPc.Arrives]
  · rcases hnone with hclosed | hempty
    · simp [Late, haccept, hclosed, AcceptPc.Arrives]
    · simp [Late, haccept, hempty, AcceptPc.Arrives]
  · simp [Late, haccept, or_and_right, exists_or, AcceptPc.Arrives]

/-- The accept thread that has finished makes no step. -/
theorem acceptStep_finished (haccept : s.accept = .finished) : s.acceptStep = none := by
  rw [Lifetime.acceptStep, haccept]

theorem accept_stopStep {c : ℕ} (hstep : s.stopStep c = some s') : s'.accept = s.accept := by
  obtain ⟨todo, pc, -, hstopping⟩ := stopping_of_stopStep hstep
  cases hstopping <;> rfl

/-- The threads that are served will not wait for their clients. -/
def Released (s : Lifetime) : Prop :=
  ∀ t ∈ s.threads, t.pc = .spawned ∨ t.pc = .serving → t.shut = true ∨ t.hungUp = true

/-- The server is stopped, this call is under way, and it will be back: no connection is late,
or those that were not served in time have hung up. -/
structure Returning (c : ℕ) (s : Lifetime) : Prop where
  sane : Sane arcaStop s
  stopped : s.running = false
  back : (∃ todo, s.Stops c todo ∧ todo <:+ arcaStop ∧ .shutdown ∈ todo) ∧ ¬ Late s ∨
    (∃ todo, s.Stops c todo ∧ todo <:+ [.drain none]) ∧ s.accept = .finished ∧ s.Released

/-- Nothing but a new connection is late. -/
theorem late_of_act {a : LifeAction} (hstep : s.act program a = some s')
    (haccept : s'.accept = s.accept) (hbacklog : s'.backlog = s.backlog)
    (hopen : s'.acceptorOpen = true → s.acceptorOpen = true) (hlate : Late s') : Late s := by
  rcases hlate with ⟨t', ht', hspawned, hstays⟩ | hcounted | ⟨hbody, hopened, hpending⟩
  · rcases threads_act hstep ht' with ⟨client, hcounted, rfl⟩ | ⟨t, ht, hbecomes⟩
    · exact .inr (.inl (by rw [hcounted]; exact hstays))
    · refine .inl ⟨t, ht, (hbecomes.spawned hspawned).1, ?_⟩
      by_contra hhung
      rw [hbecomes.hungUp (Bool.not_eq_false _ ▸ hhung)] at hstays
      cases hstays
  · exact .inr (.inl (haccept ▸ hcounted))
  · exact .inr (.inr ⟨haccept ▸ hbody, hopen hopened, hbacklog ▸ hpending⟩)

theorem Released.act (hs : Released s) (haccept : s.accept = .finished) {a : LifeAction}
    (hstep : s.act program a = some s') : Released s' := by
  intro t' ht' hreads
  rcases threads_act hstep ht' with ⟨client, hcounted, -⟩ | ⟨t, ht, hbecomes⟩
  · cases haccept.symm.trans hcounted
  · have hbefore : t.pc = .spawned ∨ t.pc = .serving :=
      hreads.elim (fun h => .inl (hbecomes.spawned h).1) hbecomes.serving
    exact (hs t ht hbefore).imp hbecomes.shut hbecomes.hungUp

/-- The daemon's `stop` has shut down the sockets of all threads that were in time. -/
theorem released_shutdown (hlate : ¬ Late s)
    (hthreads : s'.threads = s.threads.map Thread.shutdown) : Released s' := by
  intro t' ht' hreads
  rw [hthreads] at ht'
  obtain ⟨t, ht, rfl⟩ := List.mem_map.mp ht'
  rw [Thread.shutdown] at hreads ⊢
  split
  · exact .inl rfl
  · rename_i hserving
    rw [if_neg hserving] at hreads
    have hspawned := hreads.resolve_right hserving
    by_contra hstays
    rw [not_or, Bool.not_eq_true, Bool.not_eq_true] at hstays
    exact hlate (.inl ⟨t, ht, hspawned, hstays.2⟩)

theorem Returning.act {c : ℕ} (hs : Returning c s) {a : LifeAction} (hown : a.Own)
    (hstep : s.act arcaStop a = some s') : Returning c s' := by
  have hsane := hs.sane.act ordered_arcaStop (by decide) hstep
  have hstopped := (rest_act hs.stopped hown hstep).1
  refine ⟨hsane, hstopped, ?_⟩
  cases a with
  | connect | send i n | hangUp i | callStop c => exact hown.elim
  | accept =>
      have hcallers := (callers_act (by simp) (by simp) hstep).1
      rcases hs.back with ⟨hstops, hlate⟩ | ⟨-, haccept, -⟩
      · refine .inl ⟨?_, (late_acceptStep hs.stopped hstep).not.mpr hlate⟩
        simpa only [Stops, hcallers] using hstops
      · cases (acceptStep_finished haccept).symm.trans hstep
  | thread i a =>
      have hcallers := (callers_act (by simp) (by simp) hstep).1
      obtain ⟨t, t', -, -, hs'⟩ := threadStep_cases hstep
      rcases hs.back with ⟨hstops, hlate⟩ | ⟨hstops, haccept, hreleased⟩
      · refine .inl ⟨by simpa only [Stops, hcallers] using hstops, fun h => hlate ?_⟩
        exact late_of_act hstep (by rw [hs']) (by rw [hs']) (by rw [hs']; exact id) h
      · refine .inr ⟨by simpa only [Stops, hcallers] using hstops, ?_,
          Released.act hreleased haccept hstep⟩
        rw [hs', haccept]
  | stop c' =>
      obtain ⟨before, pc, hc, hstopping⟩ := stopping_of_stopStep hstep
      have hstops' : s.Stops c' before := by rw [Stops, hc]; rfl
      have hmoved := hstopping.callers hc
      rcases hs.back with ⟨⟨todo, hstops, hsuffix, hmem⟩, hlate⟩ |
        ⟨⟨todo, hstops, hsuffix⟩, haccept, hreleased⟩
      · cases hs.sane.single _ _ _ _ hstops hstops'
        cases hstops.symm.trans hstops'
        rcases arcaStop_suffixes hsuffix with rfl | rfl | rfl | rfl | rfl
        · cases hstopping
          refine .inl ⟨⟨_, by rw [Stops, hmoved]; rfl, by decide, by decide⟩, fun h => hlate ?_⟩
          exact late_of_act hstep rfl rfl id h
        · cases hstopping
          refine .inl ⟨⟨_, by rw [Stops, hmoved]; rfl, by decide, by decide⟩, fun h => hlate ?_⟩
          exact late_of_act hstep rfl rfl (fun hopen => absurd hopen Bool.false_ne_true) h
        · have haccept := (hs.sane.progress _ _ hstops).joined.resolve_left (by decide)
          cases hstopping
          exact .inr ⟨⟨_, by rw [Stops, hmoved]; rfl, List.suffix_rfl⟩, haccept,
            released_shutdown hlate rfl⟩
        · exact absurd hmem (by decide)
        · exact absurd hmem (by decide)
      · cases hs.sane.single _ _ _ _ hstops hstops'
        cases hstops.symm.trans hstops'
        have hreleased' := Released.act hreleased haccept hstep
        have haccept' := (accept_stopStep hstep).trans haccept
        refine .inr ⟨?_, haccept', hreleased'⟩
        have hends : before = [.drain none] ∨ before = [] := by
          simpa [List.suffix_cons_iff] using hsuffix
        rcases hends with rfl | rfl <;> cases hstopping <;>
          exact ⟨[], by rw [Stops, hmoved]; rfl, List.nil_suffix⟩

/-- Then it does not come to rest before it is back. -/
theorem Returning.atRest {c : ℕ} (hs : Returning c s) (hrest : AtRest arcaStop s) :
    s.callers[c]? = some (.returned true) := by
  have hunder : ∃ todo, s.Stops c todo := by
    rcases hs.back with ⟨⟨todo, hstops, -⟩, -⟩ | ⟨⟨todo, hstops, -⟩, -⟩ <;> exact ⟨todo, hstops⟩
  obtain ⟨todo, hstops⟩ := hunder
  obtain ⟨pc, hc, htodo⟩ := Option.bind_eq_some_iff.mp hstops
  cases pc with
  | outside => cases htodo
  | returned won =>
      cases won
      · cases htodo
      · exact hc
  | stopping todo =>
      exfalso
      rcases waits_of_stopStep (hrest (.stop c) trivial) hc with ⟨later, -, hloop⟩ |
        ⟨later, rfl, hactive⟩
      · exact hloop hrest.accept
      · have hreleased : Released s := by
          rcases hs.back with ⟨⟨before, hbefore, hsuffix, hmem⟩, -⟩ | ⟨-, -, hreleased⟩
          · cases hbefore.symm.trans (show s.Stops c _ by rw [Stops, hc]; rfl)
            rcases arcaStop_suffixes hsuffix with h | h | h | h | h <;> cases h
            exact absurd hmem (by decide)
          · exact hreleased
        refine hactive ?_
        rw [hs.sane.counted, hrest.accept]
        refine Nat.add_eq_zero_iff.mpr ⟨List.sum_eq_zero fun n hn => ?_, rfl⟩
        obtain ⟨t, ht, rfl⟩ := List.mem_map.mp hn
        by_contra hpresent
        have hleft : t.pc ≠ .gone := fun h => hpresent (if_pos h)
        obtain ⟨hpc, -, hshut, hhung⟩ := hrest.thread ht hleft
        rcases hreleased t ht (.inr hpc) with h | h
        · cases hshut.symm.trans h
        · cases hhung.symm.trans h

/-- A thread that was late waits for its client, and the call of `stop` for the thread. -/
structure Waiting (c i : ℕ) (s : Lifetime) : Prop where
  sane : Sane arcaStop s
  stopped : s.running = false
  waits : s.callers[c]? = some (.stopping [.drain none])
  thread : s.threads[i]? = some { pc := .serving }

theorem Waiting.act {c i : ℕ} (hs : Waiting c i s) {a : LifeAction} (hown : a.Own)
    (hstep : s.act arcaStop a = some s') : Waiting c i s' := by
  have hsane := hs.sane.act ordered_arcaStop (by decide) hstep
  have hstopped := (rest_act hs.stopped hown hstep).1
  have hstops : s.Stops c [.drain none] := by rw [Stops, hs.waits]; rfl
  have haccept := (hs.sane.progress _ _ hstops).joined.resolve_left (by decide)
  cases a with
  | connect | send i n | hangUp i | callStop c => exact hown.elim
  | accept =>
      cases (acceptStep_finished haccept).symm.trans hstep
  | thread j a =>
      obtain ⟨t, t', hj, ht', rfl⟩ := threadStep_cases hstep
      refine ⟨hsane, hstopped, hs.waits, ?_⟩
      have hne : j ≠ i := by
        rintro rfl
        cases hs.thread.symm.trans hj
        cases a <;> simp [Thread.step] at ht'
        omega
      rw [← hs.thread]
      exact List.getElem?_set_ne hne
  | stop c' =>
      obtain ⟨before, pc, hc, hstopping⟩ := stopping_of_stopStep hstep
      have hstops' : s.Stops c' before := by rw [Stops, hc]; rfl
      cases hs.sane.single _ _ _ _ hstops hstops'
      cases hstops.symm.trans hstops'
      -- It would go on without a thread, but there is one.
      cases hstopping with
      | drained polls todo hnone =>
          have hcounted := hs.sane.counted
          rw [hnone, eq_comm, Nat.add_eq_zero_iff, List.sum_eq_zero_iff] at hcounted
          have hpresent := hcounted.1 _ (List.mem_map_of_mem (List.mem_of_getElem? hs.thread))
          cases hpresent

theorem Late.thread (hlate : Late s) (haccept : s.accept = .finished) :
    ∃ t ∈ s.threads, t.pc = .spawned ∧ t.hungUp = false := by
  rcases hlate with hthread | harrives | ⟨hbody, -⟩
  · exact hthread
  · rw [haccept] at harrives
    exact harrives.elim
  · cases haccept.symm.trans hbody

/-- This call of the daemon's `stop` is under way, and a connection is late. -/
structure Missing (callers c : ℕ) (s : Lifetime) : Prop where
  reaches : Reaches (act arcaStop) Free (started callers) s
  late : Late s
  waits : ∃ todo, s.callers[c]? = some (.stopping todo) ∧ .drain none ∈ todo

/-- Before the sockets are shut down, the call of `stop` has got no further than to close the
acceptor. -/
theorem Missing.stopStep {callers c : ℕ} (hs : Missing callers c s) {todo : List StopAction}
    (hstops : s.Stops c todo) (hshutdown : .shutdown ∈ todo)
    (hstep : s.act arcaStop (.stop c) = some s') : Missing callers c s' := by
  have hsane := sane_of_reaches ordered_arcaStop (by decide) hs.reaches
  have hreach := hs.reaches.next trivial hstep
  obtain ⟨before, pc, hc, hstopping⟩ := stopping_of_stopStep hstep
  have hmoved := hstopping.callers hc
  cases hstops.symm.trans (show s.Stops c before by rw [Stops, hc]; rfl)
  have hfinished := (hsane.progress c todo hstops).joined
  rcases arcaStop_suffixes (suffix_of_reaches hs.reaches c todo hstops) with
    rfl | rfl | rfl | rfl | rfl
  · cases hstopping
    exact ⟨hreach, hs.late, _, hmoved, by decide⟩
  · have hthread := hs.late.thread (hfinished.resolve_left (by decide))
    cases hstopping
    exact ⟨hreach, .inl hthread, _, hmoved, by decide⟩
  · obtain ⟨t, ht, hspawned, hhung⟩ := hs.late.thread (hfinished.resolve_left (by decide))
    have hpassed : t.shutdown = t := if_neg (by rw [hspawned]; decide)
    cases hstopping
    refine ⟨hreach, .inl ⟨t, ?_, hspawned, hhung⟩, _, hmoved, by decide⟩
    exact List.mem_map.mpr ⟨t, ht, hpassed⟩
  · exact absurd hshutdown (by decide)
  · exact absurd hshutdown (by decide)

theorem Missing.acceptStep {callers c : ℕ} (hs : Missing callers c s) (hstopped : s.running = false)
    (hstep : s.act arcaStop .accept = some s') : Missing callers c s' := by
  refine ⟨hs.reaches.next trivial hstep, (late_acceptStep hstopped hstep).mpr hs.late, ?_⟩
  rw [(callers_act (by simp) (by simp) hstep).1]
  exact hs.waits

/-- A late connection is still late when the call of `stop` has shut the sockets down. -/
theorem exists_shutdown {callers : ℕ} {c : ℕ} {todo : List StopAction}
    (hreach : Reaches (act arcaStop) Free (started callers) s)
    (hc : s.callers[c]? = some (.stopping todo)) (hshutdown : .shutdown ∈ todo) (hlate : Late s) :
    ∃ s', Reaches (act arcaStop) (fun _ a => a.Own) s s' ∧
      s'.callers[c]? = some (.stopping [.drain none]) ∧
      ∃ t ∈ s'.threads, t.pc = .spawned ∧ t.hungUp = false := by
  -- The accept thread and the call go on until the sockets are shut down.
  let goesOn : Lifetime → LifeAction → Prop := fun s a =>
    (a = .accept ∨ a = .stop c) ∧ ∃ todo, s.Stops c todo ∧ .shutdown ∈ todo
  have hown : ∀ s a, goesOn s a → a.Own := by
    rintro s a ⟨rfl | rfl, -⟩ <;> trivial
  have hnext : ∀ s a s', Missing callers c s ∧ s.running = false → goesOn s a →
      s.act arcaStop a = some s' →
      (Missing callers c s' ∧ s'.running = false) ∧ s'.rest < s.rest := by
    rintro s a s' ⟨hs, hstopped⟩ hgoes hstep
    obtain ⟨hrun, hless⟩ := rest_act hstopped (hown s a hgoes) hstep
    refine ⟨⟨?_, hrun⟩, hless⟩
    obtain ⟨rfl | rfl, todo, hstops, hmem⟩ := hgoes
    · exact hs.acceptStep hstopped hstep
    · exact hs.stopStep hstops hmem hstep
  have hsane := sane_of_reaches ordered_arcaStop (by decide) hreach
  have hstops : s.Stops c todo := by rw [Stops, hc]; rfl
  have hdrains : .drain none ∈ todo := by
    rcases arcaStop_suffixes (suffix_of_reaches hreach c todo hstops) with
      rfl | rfl | rfl | rfl | rfl
    · decide
    · decide
    · decide
    · decide
    · exact absurd hshutdown (by decide)
  have hfirst : Missing callers c s ∧ s.running = false :=
    ⟨⟨hreach, hlate, todo, hc, hdrains⟩,
      Bool.eq_false_iff.mpr fun h => hsane.running h c todo hstops⟩
  obtain ⟨s', hreach', ⟨hs', -⟩, hstuck⟩ := exists_stuck_of_measure rest _ hnext hfirst
  refine ⟨s', hreach'.mono hown, ?_⟩
  have hsane' := sane_of_reaches ordered_arcaStop (by decide) hs'.reaches
  obtain ⟨left, hc', hmem⟩ := hs'.waits
  have hstops' : s'.Stops c left := by rw [Stops, hc']; rfl
  have hpast : .shutdown ∉ left := by
    intro hnot
    have haccept := finished_of_acceptStep (hstuck .accept ⟨.inl rfl, left, hstops', hnot⟩)
    rcases waits_of_stopStep (hstuck (.stop c) ⟨.inr rfl, left, hstops', hnot⟩) hc' with
      ⟨later, -, hloop⟩ | ⟨later, rfl, -⟩
    · exact hloop haccept
    · rcases arcaStop_suffixes (suffix_of_reaches hs'.reaches c _ hstops') with
        h | h | h | h | h <;> cases h
      exact absurd hnot (by decide)
  have hleft : left = [.drain none] := by
    rcases arcaStop_suffixes (suffix_of_reaches hs'.reaches c left hstops') with
      rfl | rfl | rfl | rfl | rfl
    · exact absurd (by decide) hpast
    · exact absurd (by decide) hpast
    · exact absurd (by decide) hpast
    · rfl
    · exact absurd hmem (by decide)
  subst hleft
  have haccept := (hsane'.progress c _ hstops').joined.resolve_left (by decide)
  exact ⟨hc', hs'.late.thread haccept⟩

/-- The thread that was late reads what its client has sent, and waits for more. -/
theorem exists_waiting {c : ℕ} (hs : Sane arcaStop s) (hstopped : s.running = false)
    (hc : s.callers[c]? = some (.stopping [.drain none])) {t : Thread} (ht : t ∈ s.threads)
    (hspawned : t.pc = .spawned) (hshut : t.shut = false) (hhung : t.hungUp = false) :
    ∃ i s', Reaches (act arcaStop) (fun _ a => a.Own) s s' ∧ Waiting c i s' := by
  obtain ⟨i, hi⟩ := List.getElem?_of_mem ht
  have hlength := (List.getElem?_eq_some_iff.mp hi).1
  have hregister : s.act arcaStop (.thread i .register) =
      some { s with threads := s.threads.set i { t with pc := .serving } } := by
    simp [act, Lifetime.threadStep, hi, Thread.step, hspawned]
  have hs₁ := hs.act ordered_arcaStop (by decide) hregister
  have hreach₁ : Reaches (act arcaStop) (fun _ a => a.Own) s _ :=
    .next .start (show LifeAction.Own (.thread i .register) from trivial) hregister
  by_cases hread : t.unread = 0
  · refine ⟨i, _, hreach₁, hs₁, hstopped, hc, ?_⟩
    have hsilent : t.toClient = {} := by rw [← hread, ← hhung]
    dsimp only
    rw [List.getElem?_set_self hlength, hsilent, hshut]
  · have hnext : act arcaStop { s with threads := s.threads.set i { t with pc := .serving } }
        (.thread i (.read t.unread false)) =
          some { s with threads := s.threads.set i { t with pc := .serving, unread := 0 } } := by
      simp [act, Lifetime.threadStep, hlength, Thread.step, Nat.pos_of_ne_zero hread]
    have hs₂ := hs₁.act ordered_arcaStop (by decide) hnext
    have hreach₂ :=
      hreach₁.next (show LifeAction.Own (.thread i (.read _ false)) from trivial) hnext
    refine ⟨i, _, hreach₂, hs₂, hstopped, hc, ?_⟩
    dsimp only
    rw [List.getElem?_set_self hlength, hshut, hhung]

/-- A call of the daemon's `stop` may wait for ever if and only if there is a connection that is
late and whose client has not hung up; nothing else keeps the server from coming to rest. -/
theorem stop_may_hang_iff {callers : ℕ} {s : Lifetime} {c : ℕ} {todo : List StopAction}
    (hreach : Reaches (act arcaStop) Free (started callers) s)
    (hc : s.callers[c]? = some (.stopping todo)) (hshutdown : .shutdown ∈ todo) :
    (∀ actions s', perform (act arcaStop) (fun _ a => a.Own) s actions = some s' →
        actions.length ≤ s.rest) ∧
      ((∃ s', Reaches (act arcaStop) (fun _ a => a.Own) s s' ∧ AtRest arcaStop s' ∧
          s'.callers[c]? ≠ some (.returned true)) ↔ Late s) := by
  have hs := sane_of_reaches ordered_arcaStop (by decide) hreach
  have hstops : s.Stops c todo := by rw [Stops, hc]; rfl
  have hstopped : s.running = false := Bool.eq_false_iff.mpr fun h => hs.running h c todo hstops
  refine ⟨fun actions s' hperform => ?_, ?_, fun hlate => ?_⟩
  · exact length_le_of_measure rest (fun s => s.running = false)
      (fun _ _ _ hrun hown hstep => rest_act hrun hown hstep) hstopped hperform
  · rintro ⟨s', hown, hrest, hhangs⟩
    by_contra hlate
    have hsuffix := suffix_of_reaches hreach c todo hstops
    have hreturning : Returning c s :=
      ⟨hs, hstopped, .inl ⟨⟨todo, hstops, hsuffix, hshutdown⟩, hlate⟩⟩
    have hend := hown.invariant (Returning c) hreturning
      fun _ _ _ hs hown hstep => hs.act hown hstep
    exact hhangs (hend.atRest hrest)
  · obtain ⟨s₁, hreach₁, hc₁, t, ht, hspawned, hhung⟩ := exists_shutdown hreach hc hshutdown hlate
    have hfree := hreach.trans (hreach₁.mono fun _ _ _ => trivial)
    have hstopped₁ := hreach₁.invariant (fun s => s.running = false) hstopped
      fun _ _ _ hrun hown hstep => (rest_act hrun hown hstep).1
    obtain ⟨i, s₂, hreach₂, hwaiting⟩ :=
      exists_waiting (sane_of_reaches ordered_arcaStop (by decide) hfree) hstopped₁ hc₁ ht
        hspawned (unshut_of_reaches hfree t ht hspawned) hhung
    obtain ⟨s₃, hreach₃, hwaits, hrest⟩ := exists_stuck_of_measure rest (Waiting c i)
      (fun _ _ _ hs hown hstep => ⟨hs.act hown hstep, (rest_act hs.stopped hown hstep).2⟩) hwaiting
    refine ⟨s₃, (hreach₁.trans hreach₂).trans hreach₃, hrest, fun hback => ?_⟩
    cases hwaits.waits.symm.trans hback

/-- The client has sent a request before it was accepted. -/
theorem stop_may_hang_one : ∃ s, Reaches (act arcaStop) Free (started 1) s ∧
    ∃ s', Reaches (act arcaStop) (fun _ a => a.Own) s s' ∧ AtRest arcaStop s' ∧
      s'.callers[0]? ≠ some (.returned true) := by
  obtain ⟨s, hreach, hs⟩ := exists_reaches (act arcaStop) Free (started 1)
    [.connect, .send (.pending 0) 5, .accept, .accept, .accept, .callStop 0]
    (fun s => s.callers[0]? = some (.stopping arcaStop) ∧ Late s) (by decide)
  obtain ⟨hc, hlate⟩ := of_decide_eq_true hs
  exact ⟨s, hreach, (stop_may_hang_iff hreach hc (by decide)).2.mpr hlate⟩

end Lifetime

end Reame.Server
