import Reame.Server.Lifecycle

/-!
# A server that was stopped comes to rest

Once `running` is cleared, every step of the server's own threads and of a call of `stop` uses
something up (`rest_act`): bytes to read, steps of a thread that is on its way out, polls.
What is left waits for a client or for another thread.

The HTTP server's `stop` waits for the accept thread and for its own polls only, so it returns
after a bounded number of steps of these two, whatever else happens (`http_stop_returns`).
-/

namespace Reame.Server

open Interleaving

/-- What is left of the thread of a connection: bytes to read, and steps. -/
def Thread.rest (t : Thread) : ℕ :=
  match t.pc with
  | .spawned => t.unread + 3
  | .serving => t.unread + 2
  | .leaving => 1
  | .gone => 0

/-- What is left of `accept_loop` when the server does not run: it may accept once more. -/
def AcceptPc.rest : AcceptPc → ℕ
  | .finished => 0
  | .atLoop => 1
  | .counted _ => 5
  | .inBody => 6

/-- The bytes to read of a connection that has no thread yet. -/
def AcceptPc.unread : AcceptPc → ℕ
  | .counted client => client.unread
  | _ => 0

def StopAction.rest : StopAction → ℕ
  | .drain (some k) => k + 1
  | _ => 1

def StopPc.rest : StopPc → ℕ
  | .stopping todo => (todo.map StopAction.rest).sum + 1
  | _ => 0

theorem rest_step {t t' : Thread} {a : ThreadAction} (hstep : t.step a = some t') :
    t'.rest < t.rest := by
  cases a with
  | register =>
      rw [Thread.step] at hstep
      split at hstep
      · rename_i hpc
        cases hstep
        simp [Thread.rest, hpc]
      · cases hstep
  | read n leaves =>
      rw [Thread.step] at hstep
      split at hstep
      · rename_i hpc
        obtain ⟨hpc, hsome, henough⟩ := hpc
        cases hstep
        cases leaves
        · simp [Thread.rest, hpc]
          omega
        · simp [Thread.rest, hpc]
      · cases hstep
  | readFails =>
      rw [Thread.step] at hstep
      split at hstep
      · rename_i hpc
        cases hstep
        simp [Thread.rest, hpc.1]
      · cases hstep
  | exit =>
      rw [Thread.step] at hstep
      split at hstep
      · rename_i hpc
        cases hstep
        simp [Thread.rest, hpc]
      · cases hstep

theorem rest_shutdown (t : Thread) : t.shutdown.rest = t.rest := by
  rw [Thread.shutdown]
  split
  · rfl
  · rfl

namespace Lifetime

/-- What is left of a server that does not run. -/
def rest (s : Lifetime) : ℕ :=
  (s.backlog.map Client.unread).sum + s.accept.unread + s.accept.rest +
    (s.threads.map Thread.rest).sum + (s.callers.map StopPc.rest).sum

variable {program : List StopAction} {s s' : Lifetime}

theorem rest_acceptStep (hrunning : s.running = false) (hstep : s.acceptStep = some s') :
    s'.running = false ∧ s'.accept.rest < s.accept.rest ∧ s'.rest < s.rest := by
  rcases acceptStep_cases hstep with ⟨haccept, rfl⟩ | ⟨client, later, haccept, -, hpending, rfl⟩ |
    ⟨haccept, -, rfl⟩ | ⟨client, haccept, rfl⟩
  · simp [rest, haccept, hrunning, AcceptPc.rest, AcceptPc.unread]
  · refine ⟨hrunning, by simp [haccept, AcceptPc.rest], ?_⟩
    simp [rest, haccept, hpending, AcceptPc.rest, AcceptPc.unread]
    omega
  · simp [rest, haccept, hrunning, AcceptPc.rest, AcceptPc.unread]
  · -- The new thread has three steps before it, and this one is worth four.
    refine ⟨hrunning, by simp [haccept, AcceptPc.rest], ?_⟩
    simp [rest, haccept, AcceptPc.rest, AcceptPc.unread, Thread.rest]
    omega

theorem rest_threadStep {i : ℕ} {a : ThreadAction} (hstep : s.threadStep i a = some s') :
    s'.running = s.running ∧ s'.rest < s.rest := by
  obtain ⟨t, t', hi, ht', rfl⟩ := threadStep_cases hstep
  have hsum := sum_map_set Thread.rest hi t'
  have hless := rest_step ht'
  refine ⟨rfl, ?_⟩
  rw [rest, rest]
  dsimp only
  omega

theorem Stopping.rest_lt {c : ℕ} {todo : List StopAction} {pc : StopPc}
    (hstopping : s.Stopping c todo pc s') : pc.rest < (StopPc.stopping todo).rest := by
  cases hstopping with
  | back => decide
  | drained polls todo => cases polls <;> simp [StopPc.rest, StopAction.rest]
  | _ => simp [StopPc.rest, StopAction.rest]

theorem rest_stopStep {c : ℕ} (hstep : s.stopStep c = some s') :
    s'.running = s.running ∧ s'.rest < s.rest := by
  obtain ⟨todo, pc, hc, hstopping⟩ := stopping_of_stopStep hstep
  have hsum := sum_map_set StopPc.rest hc pc
  have hless := hstopping.rest_lt
  cases hstopping with
  | shutdown todo =>
      refine ⟨rfl, ?_⟩
      rw [rest, rest]
      dsimp only [moveTo]
      rw [sum_map_shutdown rest_shutdown]
      omega
  | _ =>
      refine ⟨rfl, ?_⟩
      rw [rest, rest]
      dsimp only [moveTo]
      omega

/-- No step of its own keeps a stopped server from coming to rest. -/
theorem rest_act {a : LifeAction} (hrunning : s.running = false) (hown : a.Own)
    (hstep : s.act program a = some s') : s'.running = false ∧ s'.rest < s.rest := by
  cases a with
  | accept =>
      obtain ⟨hsame, -, hless⟩ := rest_acceptStep hrunning hstep
      exact ⟨hsame, hless⟩
  | thread i a =>
      obtain ⟨hsame, hless⟩ := rest_threadStep hstep
      exact ⟨hsame.trans hrunning, hless⟩
  | stop c =>
      obtain ⟨hsame, hless⟩ := rest_stopStep hstep
      exact ⟨hsame.trans hrunning, hless⟩
  | connect => exact hown.elim
  | send i n => exact hown.elim
  | hangUp i => exact hown.elim
  | callStop c => exact hown.elim

theorem finished_of_acceptStep (hstuck : s.acceptStep = none) : s.accept = .finished := by
  rw [Lifetime.acceptStep] at hstuck
  cases haccept : s.accept with
  | finished => rfl
  | inBody =>
      simp only [haccept] at hstuck
      split at hstuck
      · cases hstuck
      · split at hstuck <;> cases hstuck
  | atLoop | counted client =>
      simp only [haccept] at hstuck
      cases hstuck

/-- A call of `stop` waits for the accept thread or, without a limit, for the others. -/
theorem waits_of_stopStep {c : ℕ} {todo : List StopAction} (hstuck : s.stopStep c = none)
    (hc : s.callers[c]? = some (.stopping todo)) :
    (∃ later, todo = .join :: later ∧ s.accept ≠ .finished) ∨
      ∃ later, todo = .drain none :: later ∧ s.active ≠ 0 := by
  simp only [Lifetime.stopStep, hc] at hstuck
  cases todo with
  | nil => cases hstuck
  | cons a later =>
      cases a with
      | close | shutdown => cases hstuck
      | join =>
          dsimp only at hstuck
          split at hstuck
          · cases hstuck
          · rename_i hrunning
            exact .inl ⟨later, rfl, hrunning⟩
      | drain polls =>
          dsimp only at hstuck
          split at hstuck
          · cases hstuck
          · rename_i hactive
            cases polls with
            | none => exact .inr ⟨later, rfl, hactive⟩
            | some k => cases k <;> cases hstuck

/-- Nothing of the server can move. -/
abbrev AtRest (program : List StopAction) : Lifetime → Prop :=
  Stuck (act program) fun _ a => a.Own

theorem AtRest.accept (hrest : AtRest program s) : s.accept = .finished :=
  finished_of_acceptStep (hrest .accept trivial)

theorem AtRest.threadStep (hrest : AtRest program s) {t : Thread} (ht : t ∈ s.threads)
    (a : ThreadAction) : t.step a = none := by
  obtain ⟨i, hi⟩ := List.getElem?_of_mem ht
  have hstuck : s.threadStep i a = none := hrest (.thread i a) trivial
  rw [Lifetime.threadStep, hi] at hstuck
  exact Option.map_eq_none_iff.mp hstuck

/-- A thread that is left over reads from a client that neither sends nor hangs up. -/
theorem AtRest.thread (hrest : AtRest program s) {t : Thread} (ht : t ∈ s.threads)
    (hleft : t.pc ≠ .gone) :
    t.pc = .serving ∧ t.unread = 0 ∧ t.shut = false ∧ t.hungUp = false := by
  have hnone := hrest.threadStep ht
  have hpc : t.pc = .serving := by
    cases hpc : t.pc with
    | serving => rfl
    | gone => exact absurd hpc hleft
    | spawned =>
        have hstuck := hnone .register
        rw [Thread.step, if_pos hpc] at hstuck
        cases hstuck
    | leaving =>
        have hstuck := hnone .exit
        rw [Thread.step, if_pos hpc] at hstuck
        cases hstuck
  have hread := hnone (.read t.unread false)
  have hfails := hnone .readFails
  simp only [Thread.step, hpc, ite_eq_right_iff, reduceCtorEq, imp_false, true_and, le_refl,
    and_true, not_lt, Nat.le_zero, not_or, Bool.not_eq_true] at hread hfails
  exact ⟨hpc, hread, hfails⟩

section Client

variable {change : Bool → Client → Option Client} {place : Place}

theorem callers_clientStep (hstep : s.clientStep change place = some s') :
    s'.callers = s.callers ∧ s'.running = s.running := by
  obtain ⟨k, client, rfl⟩ | ⟨client, client', -, -, rfl⟩ | ⟨i, t, client, -, -, rfl⟩ :=
    clientStep_cases hstep <;> exact ⟨rfl, rfl⟩

theorem accept_clientStep (hstep : s.clientStep change place = some s') :
    s'.accept.rest = s.accept.rest := by
  obtain ⟨k, client, rfl⟩ | ⟨client, client', haccept, -, rfl⟩ | ⟨i, t, client, -, -, rfl⟩ :=
    clientStep_cases hstep
  · rfl
  · rw [haccept]
    rfl
  · rfl

end Client

/-- Only a caller of `stop` moves a caller, and only a caller stops the server. -/
theorem callers_act {a : LifeAction} (hcall : ∀ c, a ≠ .callStop c) (hstop : ∀ c, a ≠ .stop c)
    (hstep : s.act program a = some s') :
    s'.callers = s.callers ∧ s'.running = s.running := by
  cases a with
  | connect =>
      cases hstep
      exact ⟨rfl, rfl⟩
  | send place n => exact callers_clientStep hstep
  | hangUp place =>
      exact callers_clientStep
        (show s.clientStep (fun _ => Client.hangUp) place = some s' from hstep)
  | accept =>
      rcases acceptStep_cases hstep with ⟨-, rfl⟩ | ⟨_, _, -, -, -, rfl⟩ | ⟨-, -, rfl⟩ |
        ⟨_, -, rfl⟩ <;> exact ⟨rfl, rfl⟩
  | thread i a =>
      obtain ⟨t, t', -, -, rfl⟩ := threadStep_cases hstep
      exact ⟨rfl, rfl⟩
  | callStop c => exact absurd rfl (hcall c)
  | stop c => exact absurd rfl (hstop c)

/-- Only the accept thread makes its steps. -/
theorem accept_act {a : LifeAction} (hother : a ≠ .accept) (hstep : s.act program a = some s') :
    s'.accept.rest = s.accept.rest := by
  cases a with
  | connect =>
      cases hstep
      rfl
  | send place n => exact accept_clientStep hstep
  | hangUp place =>
      exact accept_clientStep
        (show s.clientStep (fun _ => Client.hangUp) place = some s' from hstep)
  | accept => exact absurd rfl hother
  | thread i a =>
      obtain ⟨t, t', -, -, rfl⟩ := threadStep_cases hstep
      rfl
  | callStop c => obtain ⟨-, ⟨-, rfl⟩ | ⟨-, rfl⟩⟩ := callStopStep_cases hstep <;> rfl
  | stop c =>
      obtain ⟨todo, pc, -, hstopping⟩ := stopping_of_stopStep hstep
      cases hstopping <;> rfl

/-- Where the next action of a call of `stop` leads to. -/
theorem Stopping.callers {c : ℕ} {todo : List StopAction} {pc : StopPc}
    (hstopping : s.Stopping c todo pc s') (hc : s.callers[c]? = some (.stopping todo)) :
    s'.callers[c]? = some pc := by
  have hset : (s.callers.set c pc)[c]? = some pc := by
    rw [List.getElem?_set_self (List.getElem?_eq_some_iff.mp hc).1]
  cases hstopping <;> exact hset

/-! ## The HTTP server's `stop` returns -/

/-- The steps that the accept thread and a caller may still make. -/
def pace (s : Lifetime) (c : ℕ) : ℕ := s.accept.rest + (s.callers[c]?.elim 0 StopPc.rest)

/-- The server was stopped, and this caller has called `stop`. -/
structure Called (s : Lifetime) (c : ℕ) : Prop where
  stopped : s.running = false
  inside : ∃ pc, s.callers[c]? = some pc ∧ pc ≠ .outside

theorem Stopping.callers_eq {c : ℕ} {todo : List StopAction} {pc : StopPc}
    (hstopping : s.Stopping c todo pc s') :
    s'.callers = s.callers.set c pc ∧ s'.running = s.running := by
  cases hstopping <;> exact ⟨rfl, rfl⟩

/-- Nobody else moves a caller that is inside. -/
theorem Called.other {c : ℕ} (hcalled : s.Called c) {a : LifeAction} (hother : a ≠ .stop c)
    (hstep : s.act program a = some s') :
    s'.running = false ∧ s'.callers[c]? = s.callers[c]? := by
  obtain ⟨pc, hc, hinside⟩ := hcalled.inside
  by_cases hcall : ∃ c', a = .callStop c'
  · obtain ⟨c', rfl⟩ := hcall
    obtain ⟨houtside, hcase⟩ := callStopStep_cases hstep
    have hne : c' ≠ c := fun h => hinside (Option.some.inj (hc.symm.trans (h ▸ houtside)))
    obtain ⟨-, rfl⟩ | ⟨hstopped, rfl⟩ := hcase
    · exact ⟨rfl, List.getElem?_set_ne hne⟩
    · exact ⟨hstopped, List.getElem?_set_ne hne⟩
  · by_cases hstop : ∃ c', a = .stop c'
    · obtain ⟨c', rfl⟩ := hstop
      have hne : c' ≠ c := fun h => hother (congrArg LifeAction.stop h)
      obtain ⟨todo, pc', -, hstopping⟩ := stopping_of_stopStep hstep
      rw [hstopping.callers_eq.1, hstopping.callers_eq.2]
      exact ⟨hcalled.stopped, List.getElem?_set_ne hne⟩
    · obtain ⟨hcallers, hrunning⟩ :=
        callers_act (not_exists.mp hcall) (not_exists.mp hstop) hstep
      rw [hcallers, hrunning]
      exact ⟨hcalled.stopped, rfl⟩

/-- Each step of the two is one less, and no other step is one more. -/
theorem Called.act {c : ℕ} (hcalled : s.Called c) {a : LifeAction}
    (hstep : s.act program a = some s') :
    s'.Called c ∧ s'.pace c + (if a = .accept ∨ a = .stop c then 1 else 0) ≤ s.pace c := by
  by_cases hstop : a = .stop c
  · subst hstop
    obtain ⟨todo, pc, hc, hstopping⟩ := stopping_of_stopStep hstep
    have hless := hstopping.rest_lt
    have hmoved := hstopping.callers hc
    refine ⟨⟨hstopping.callers_eq.2.trans hcalled.stopped, pc, hmoved, ?_⟩, ?_⟩
    · cases hstopping <;> exact StopPc.noConfusion
    · rw [if_pos (.inr rfl), pace, pace, hmoved, hc, accept_act (by simp) hstep]
      exact Nat.add_lt_add_left hless _
  · obtain ⟨hrunning, hsame⟩ := hcalled.other hstop hstep
    refine ⟨⟨hrunning, hsame ▸ hcalled.inside⟩, ?_⟩
    rw [pace, pace, hsame]
    by_cases hloop : a = .accept
    · subst hloop
      have hless := (rest_acceptStep hcalled.stopped hstep).2.1
      rw [if_pos (.inl rfl)]
      omega
    · rw [if_neg (not_or.mpr ⟨hloop, hstop⟩), accept_act hloop hstep]
      rfl

/-- Whatever else happens, they make no more steps than that. -/
theorem Called.perform {c : ℕ} (hcalled : s.Called c) {actions : List LifeAction}
    (hperform : perform (Lifetime.act program) Free s actions = some s') :
    s'.Called c ∧ s'.pace c + actions.countP (fun a => a = .accept ∨ a = .stop c) ≤ s.pace c := by
  induction actions generalizing s with
  | nil =>
      cases hperform
      exact ⟨hcalled, le_refl _⟩
  | cons a later ih =>
      rw [Interleaving.perform, if_pos trivial] at hperform
      obtain ⟨next, hstep, hlater⟩ := Option.bind_eq_some_iff.mp hperform
      obtain ⟨hnext, hpace⟩ := hcalled.act hstep
      obtain ⟨hend, hrest⟩ := ih hnext hlater
      refine ⟨hend, ?_⟩
      rw [List.countP_cons]
      simp only [decide_eq_true_eq]
      omega

theorem called_of_callStop {c : ℕ} (hcall : s.act program (.callStop c) = some s') :
    s'.Called c ∧ s'.pace c ≤ 6 + (StopPc.stopping program).rest := by
  obtain ⟨hc, hcase⟩ := callStopStep_cases hcall
  have haccept : s.accept.rest ≤ 6 := by cases s.accept <;> simp [AcceptPc.rest]
  have hset : ∀ pc, (s.callers.set c pc)[c]? = some pc :=
    fun pc => by rw [List.getElem?_set_self (List.getElem?_eq_some_iff.mp hc).1]
  obtain ⟨-, rfl⟩ | ⟨hstopped, rfl⟩ := hcase
  · refine ⟨⟨rfl, _, hset _, StopPc.noConfusion⟩, ?_⟩
    rw [pace, moveTo, hset]
    exact Nat.add_le_add_right haccept _
  · refine ⟨⟨hstopped, _, hset _, StopPc.noConfusion⟩, ?_⟩
    rw [pace, moveTo, hset]
    exact Nat.add_le_add haccept (Nat.zero_le _)

/-- The HTTP server's `stop` is back after at most 610 steps of the accept thread and its own,
whatever the other threads, callers and clients do; and until it is back, one of the two can
make a step. -/
theorem http_stop_returns {callers : ℕ} {first called s : Lifetime} {c : ℕ}
    {actions : List LifeAction} (hreach : Reaches (act httpStop) Free (started callers) first)
    (hcall : first.act httpStop (.callStop c) = some called)
    (hperform : perform (act httpStop) Free called actions = some s) :
    actions.countP (fun a => a = .accept ∨ a = .stop c) ≤ 610 ∧
      ((∃ won, s.callers[c]? = some (.returned won)) ∨
        s.acceptStep.isSome ∨ (s.stopStep c).isSome) := by
  obtain ⟨hcalled, hpace⟩ := called_of_callStop hcall
  obtain ⟨⟨-, pc, hc, hinside⟩, hcount⟩ := hcalled.perform hperform
  have hrest : (StopPc.stopping httpStop).rest = 604 := by decide
  refine ⟨by omega, ?_⟩
  have hs := sane_of_reaches ordered_httpStop (by decide)
    ((hreach.next trivial hcall).perform hperform)
  cases pc with
  | outside => exact absurd rfl hinside
  | returned won => exact .inl ⟨won, hc⟩
  | stopping todo =>
      have hprogress := hs.progress c todo (by rw [Stops, hc]; rfl)
      refine .inr ?_
      by_contra hwaits
      simp only [not_or, Option.not_isSome_iff_eq_none] at hwaits
      rcases waits_of_stopStep hwaits.2 hc with ⟨later, -, hloop⟩ | ⟨later, rfl, -⟩
      · exact hloop (finished_of_acceptStep hwaits.1)
      · exact absurd (hprogress.waits List.mem_cons_self) (by decide)

/-- While this call of `stop` waits, a connection is served that was accepted before. -/
theorem http_stop_returns_one : ∃ first called s,
    Reaches (act httpStop) Free (started 1) first ∧
    first.act httpStop (.callStop 0) = some called ∧
    perform (act httpStop) Free called [.stop 0, .accept, .stop 0, .stop 0, .send (.thread 0) 5,
      .thread 0 (.read 5 true), .stop 0, .thread 0 .exit, .stop 0, .stop 0] = some s ∧
    [LifeAction.stop 0, .accept, .stop 0, .stop 0, .send (.thread 0) 5,
      .thread 0 (.read 5 true), .stop 0, .thread 0 .exit, .stop 0, .stop 0].countP
        (fun a => a = .accept ∨ a = .stop 0) ≤ 610 ∧
      ((∃ won, s.callers[0]? = some (.returned won)) ∨
        s.acceptStep.isSome ∨ (s.stopStep 0).isSome) := by
  obtain ⟨first, hreach, hfirst⟩ := exists_reaches (act httpStop) Free (started 1)
    [.connect, .accept, .accept, .accept, .thread 0 .register]
    (fun s => s = ⟨true, true, [], .atLoop, 1, [{ pc := .serving }], [.outside]⟩) (by decide)
  obtain rfl := of_decide_eq_true hfirst
  have hcall : act httpStop ⟨true, true, [], .atLoop, 1, [{ pc := .serving }], [.outside]⟩
      (.callStop 0) =
        some ⟨false, true, [], .atLoop, 1, [{ pc := .serving }], [.stopping httpStop]⟩ := rfl
  have hperform : perform (act httpStop) Free
      ⟨false, true, [], .atLoop, 1, [{ pc := .serving }], [.stopping httpStop]⟩
      [.stop 0, .accept, .stop 0, .stop 0, .send (.thread 0) 5, .thread 0 (.read 5 true), .stop 0,
        .thread 0 .exit, .stop 0, .stop 0] =
          some ⟨false, false, [], .finished, 0, [{ pc := .gone }], [.returned true]⟩ := by decide
  exact ⟨_, _, _, hreach, hcall, hperform, http_stop_returns hreach hcall hperform⟩

end Lifetime

end Reame.Server
