import Reame.Core.AnyBackend

/-!
# Every accepted request completes once

A `Ledger` keeps, beside the state of a scheduler, the ids that `submit` has returned and
those of the requests that have entered a slot.  Its invariant `Balanced` is a conservation
law: who has entered and who is pending were submitted in that order, and every id submitted
is held by one request or by one record of `finish`.

`run_until_idle` leaves because a batch makes every request in it longer or drops it, and
because something is admitted whenever nothing is active: without an active request there is
no donor to wait for, and every prompt fits alone.
-/

namespace Reame.Core.Scheduler

variable {K : Type*} [Field K] [LinearOrder K] (scheduler : Scheduler K)

/-- A scheduler with the ids it has returned and the ids that have entered a slot, both in
order. -/
structure Ledger (K : Type*) where
  state : SchedulerState K
  submitted : List ℕ
  entered : List ℕ

/-- The ids that the next `step` moves into slots. -/
def entering (s : SchedulerState K) : List ℕ :=
  ((scheduler.admitPending s).active.drop s.active.length).map Request.id

namespace Ledger

/-- One call. -/
def move (l : Ledger K) : Move K → Ledger K
  | .submit prompt gen onToken =>
      match scheduler.submit l.state prompt gen onToken with
      | .ok (id, state) => { l with state, submitted := l.submitted ++ [id] }
      | .error _ => l
  | .step answer =>
      { l with
        state := (scheduler.stepWith answer l.state).1
        entered := l.entered ++ scheduler.entering l.state }

/-- An iteration of `run_until_idle`, with the number of the `step` it calls and what the
`decode_seqs` of each comes to. -/
def idleStep (answers : ℕ → Decoding K) : Ledger K × ℕ → (Ledger K × ℕ) ⊕ Ledger K
  | (l, call) =>
      let after := l.move scheduler (.step (answers call))
      if (scheduler.stepWith (answers call) l.state).2 then .inl (after, call + 1) else .inr after

/-- Nothing is left to do, and each submitted request has entered a slot in its turn and has
been finished once. -/
structure Complete (l : Ledger K) (submitted : List ℕ) : Prop where
  entered : l.entered = submitted
  finished : (l.state.done.map Prod.fst).Perm submitted
  pending : l.state.pending = []
  active : l.state.active = []
  free : ∀ used ∈ l.state.slotUsed, used = false

/-- Nobody is lost and nobody is there twice. -/
structure Balanced (l : Ledger K) : Prop where
  rested : Rested scheduler l.state
  order : l.entered ++ l.state.pending.map Request.id = l.submitted
  numbers : (service l.state).numbers.Perm l.submitted

end Ledger

variable {scheduler}

/-! ## One step -/

/-- Admission moves requests from the head of the queue to the end of the active ones. -/
theorem entering_append {s : SchedulerState K} (hcoherent : Coherent scheduler s) :
    scheduler.entering s ++ (scheduler.admitPending s).pending.map Request.id =
      s.pending.map Request.id := by
  obtain ⟨-, hservice, more, hmore⟩ := admitFrom_spec s.pending s hcoherent
  have hactive : (scheduler.admitPending s).active = s.active ++ more := hmore.symm
  have hids : ((scheduler.admitPending s).active ++
      (scheduler.admitPending s).pending).map Request.id =
        (s.active ++ s.pending).map Request.id := by
    have hlive := congrArg (fun s => s.live.map Prod.fst) hservice
    simp only [service, List.map_map, Function.comp_def] at hlive
    exact hlive
  rw [entering, hactive, List.drop_left]
  rw [hactive, List.map_append, List.map_append, List.map_append, List.append_assoc] at hids
  exact List.append_cancel_left hids

/-- A step with something to do serves a batch. -/
theorem stepWith_cases {s : SchedulerState K} (hcoherent : Coherent scheduler s)
    (hparallel : 1 ≤ scheduler.nParallel) (answer : Decoding K) :
    (s.active = [] ∧ s.pending = [] ∧ scheduler.stepWith answer s = (s, false)) ∨
      (scheduler.admitPending s).active ≠ [] ∧
        (scheduler.stepWith answer s).1 =
          scheduler.serveWith answer (scheduler.admitPending s) ∧
        ((scheduler.stepWith answer s).2 = false →
          (scheduler.stepWith answer s).1.active = [] ∧
            (scheduler.stepWith answer s).1.pending = []) := by
  by_cases hlive : s.active ++ s.pending = []
  · obtain ⟨hactive, hpending⟩ := List.append_eq_nil_iff.mp hlive
    have hloop : scheduler.admitPending s = s := by
      rw [admitPending, hpending, admitFrom, ← hpending]
    refine .inl ⟨hactive, hpending, ?_⟩
    simp [stepWith, hloop, hactive, hpending]
  · have hne := admit_active_ne_nil hcoherent hparallel hlive
    refine .inr ⟨hne, ?_⟩
    simp [stepWith, hne]

/-! ## Conservation -/

theorem numbers_serveWith (answer : Decoding K) (s : SchedulerState K) :
    (service (scheduler.serveWith answer s)).numbers.Perm (service s).numbers := by
  rw [service_eq_map, service_eq_map, Service.numbers_map, Service.numbers_map, serveWith_eq,
    roster_turnOver _ fun r _ => turn_turnWith scheduler answer r]
  exact Service.numbers_tick _ _

namespace Ledger

theorem Balanced.step {l : Ledger K} (hl : Balanced scheduler l) (answer : Decoding K) :
    Balanced scheduler (l.move scheduler (.step answer)) := by
  obtain ⟨hadmitted, hservice⟩ := admit_spec hl.rested.coherent
  have hentered := entering_append hl.rested.coherent
  refine ⟨hl.rested.move (.step answer), ?_, ?_⟩
  · have hpending : (scheduler.stepWith answer l.state).1.pending =
        (scheduler.admitPending l.state).pending := by
      rw [stepWith]
      dsimp only
      split
      · rfl
      · rw [serveWith_eq, turnOver, retire_pending]
    calc l.entered ++ scheduler.entering l.state ++
          (scheduler.stepWith answer l.state).1.pending.map Request.id
        = l.entered ++ (scheduler.entering l.state ++
            (scheduler.admitPending l.state).pending.map Request.id) := by
          rw [hpending, List.append_assoc]
      _ = l.submitted := by rw [hentered, hl.order]
  · refine List.Perm.trans ?_ hl.numbers
    rw [← hservice, move, stepWith]
    dsimp only
    split
    · exact .refl _
    · exact numbers_serveWith answer _

theorem Balanced.move {l : Ledger K} (hl : Balanced scheduler l) (call : Move K) :
    Balanced scheduler (l.move scheduler call) := by
  cases call with
  | step answer => exact hl.step answer
  | submit prompt gen onToken =>
      have hrested := hl.rested.move (.submit prompt gen onToken)
      rcases submit_cases scheduler l.state prompt gen onToken with
        ⟨fault, hsubmit⟩ | ⟨callback, s', -, hsubmit, hservice, -, hs'⟩
      · rw [Ledger.move, hsubmit]
        exact hl
      · rw [Scheduler.move, apply, hsubmit] at hrested
        rw [Ledger.move, hsubmit]
        refine ⟨hrested, ?_, ?_⟩
        · have hpending : s'.pending.map Request.id =
              l.state.pending.map Request.id ++ [l.state.nextId] := by
            rw [hs', List.map_append]
            rfl
          rw [hpending, ← List.append_assoc, hl.order]
        · rw [hservice]
          exact (Service.numbers_submit _ _).trans (hl.numbers.append_right _)

variable (scheduler) in
/-- Every ledger reached by calls is balanced. -/
theorem balanced_run (calls : List (Move K)) :
    Balanced scheduler (Runs.run (Ledger.move scheduler) ⟨scheduler.initial, [], []⟩ calls) := by
  have hrun : ∀ l : Ledger K, Balanced scheduler l →
      Balanced scheduler (Runs.run (Ledger.move scheduler) l calls) := by
    induction calls with
    | nil => exact fun _ hl => hl
    | cons call rest ih => exact fun l hl => ih _ (hl.move call)
  refine hrun _ ⟨rested_initial, rfl, ?_⟩
  exact .refl _

/-- The ids returned are different. -/
theorem Balanced.nodup {l : Ledger K} (hl : Balanced scheduler l) : l.submitted.Nodup :=
  hl.numbers.nodup_iff.mp hl.rested.coherent.numbered.numbers_nodup

/-- A ledger without requests has seen all of them finished. -/
theorem Balanced.complete {l : Ledger K} (hl : Balanced scheduler l)
    (hactive : l.state.active = []) (hpending : l.state.pending = []) :
    l.Complete l.submitted := by
  refine ⟨?_, ?_, hpending, hactive, fun used hused => ?_⟩
  · have horder := hl.order
    rwa [hpending, List.map_nil, List.append_nil] at horder
  · have hnumbers := hl.numbers
    simpa [Service.numbers, service, hactive, hpending] using hnumbers
  · obtain ⟨slot, hslot⟩ := List.mem_iff_getElem?.mp hused
    cases used with
    | false => rfl
    | true =>
        obtain ⟨r, hr, -⟩ := hl.rested.coherent.owned slot hslot
        rw [hactive] at hr
        cases hr

end Ledger

/-! ## Termination -/

variable (scheduler) in
/-- How many more tokens a dialogue can bear, and one. -/
def remaining (d : Dialogue K) : ℕ := scheduler.nCtx + 1 - d.history.length

/-- A batch leaves less to do. -/
theorem backlog_serveWith {s : SchedulerState K} (hcoherent : Coherent scheduler s)
    (hne : s.active ≠ []) (answer : Decoding K) :
    Service.backlog scheduler.remaining s.nextId (service (scheduler.serveWith answer s)) <
      Service.backlog scheduler.remaining s.nextId (service s) := by
  have hturn : ∀ r ∈ s.active, Turn scheduler r (scheduler.turnWith answer r) :=
    fun r _ => turn_turnWith scheduler answer r
  have hnumbered := hcoherent.numbered
  rw [service_eq_map, Service.numbered_map] at hnumbered
  rw [service_eq_map, service_eq_map, Service.backlog_map, Service.backlog_map, serveWith_eq,
    roster_turnOver _ hturn]
  obtain ⟨r, hr⟩ := List.exists_mem_of_ne_nil _ hne
  have hlive : (r.id, r) ∈ (roster s).live :=
    List.mem_map.mpr ⟨r, List.mem_append_left _ hr, rfl⟩
  refine Service.backlog_tick hnumbered ?_ ?_ (List.length_pos_iff.mpr hne) hlive
    (hnumbered.live_lt _ hlive).le
  · intro job hjob
    obtain ⟨r, hr, rfl⟩ := List.mem_map.mp hjob
    have hfits : r.history.length ≤ scheduler.nCtx := by
      rcases List.mem_append.mp hr with hr | hr
      · exact (hcoherent.seated r hr).fits
      · exact (hcoherent.waiting r hr).fits
    simp only [Function.comp_apply, remaining, Request.dialogue]
    omega
  · intro before after hstays
    have hof := turn_turnWith scheduler answer before
    cases hafter : scheduler.turnWith answer before with
    | inr p =>
        rw [outcomeOf, hafter] at hstays
        cases hstays
    | inl r' =>
        rw [outcomeOf, hafter] at hstays
        obtain rfl : r' = after := Sum.inl.inj hstays
        rw [hafter] at hof
        cases hof with
        | stays next hhistory hroom =>
            simp only [Function.comp_apply, remaining, Request.dialogue, hhistory,
              List.length_append, List.length_singleton]
            omega

namespace Ledger

/-- An iteration of `run_until_idle` that goes on has left less to do. -/
theorem idleStep_inl {answers : ℕ → Decoding K} {l after : Ledger K} {call next : ℕ}
    (hparallel : 1 ≤ scheduler.nParallel) (hl : Balanced scheduler l)
    (hstep : idleStep scheduler answers (l, call) = .inl (after, next)) :
    Balanced scheduler after ∧ after.submitted = l.submitted ∧
      Service.backlog scheduler.remaining after.state.nextId (service after.state) <
        Service.backlog scheduler.remaining l.state.nextId (service l.state) := by
  obtain ⟨hadmitted, hservice⟩ := admit_spec hl.rested.coherent
  unfold idleStep at hstep
  dsimp only at hstep
  split at hstep
  · rename_i hmore
    cases hstep
    refine ⟨hl.step _, rfl, ?_⟩
    rcases stepWith_cases hl.rested.coherent hparallel (answers call) with
      ⟨-, -, hidle⟩ | ⟨hne, hserve, -⟩
    · rw [hidle] at hmore
      cases hmore
    · have hless := backlog_serveWith hadmitted hne (answers call)
      have hnext : (scheduler.admitPending l.state).nextId = l.state.nextId :=
        congrArg Service.nextId hservice
      have hnext' : (scheduler.serveWith (answers call) (scheduler.admitPending l.state)).nextId =
          (scheduler.admitPending l.state).nextId := by
        rw [serveWith_eq, turnOver, retire_nextId]
      rw [move, hserve, hnext', hnext]
      rwa [hnext, hservice] at hless
  · cases hstep

/-- `run_until_idle` returns when nothing is left to do. -/
theorem idleStep_inr {answers : ℕ → Decoding K} {l idle : Ledger K} {call : ℕ}
    (hparallel : 1 ≤ scheduler.nParallel) (hl : Balanced scheduler l)
    (hstep : idleStep scheduler answers (l, call) = .inr idle) : idle.Complete l.submitted := by
  unfold idleStep at hstep
  dsimp only at hstep
  split at hstep
  · cases hstep
  · rename_i hmore
    cases hstep
    have hafter := hl.step (answers call)
    rcases stepWith_cases hl.rested.coherent hparallel (answers call) with
      ⟨hactive, hpending, hidle⟩ | ⟨-, -, hnone⟩
    · have hstate : (l.move scheduler (.step (answers call))).state = l.state := by
        rw [move, hidle]
      exact hafter.complete (hstate ▸ hactive) (hstate ▸ hpending)
    · obtain ⟨hactive, hpending⟩ := hnone (Bool.not_eq_true _ ▸ hmore)
      exact hafter.complete hactive hpending

variable (scheduler) in
/-- A state of the loop of `run_until_idle`: no request has come in since it was entered. -/
def InLoop (submitted : List ℕ) (p : Ledger K × ℕ) : Prop :=
  Balanced scheduler p.1 ∧ p.1.submitted = submitted

theorem InLoop.next {answers : ℕ → Decoding K} {submitted : List ℕ} {before after : Ledger K × ℕ}
    (hparallel : 1 ≤ scheduler.nParallel) (hbefore : InLoop scheduler submitted before)
    (hstep : idleStep scheduler answers before = .inl after) :
    InLoop scheduler submitted after ∧
      Service.backlog scheduler.remaining after.1.state.nextId (service after.1.state) <
        Service.backlog scheduler.remaining before.1.state.nextId (service before.1.state) := by
  obtain ⟨hafter, hsame, hless⟩ := idleStep_inl hparallel hbefore.1 hstep
  exact ⟨⟨hafter, hsame.trans hbefore.2⟩, hless⟩

/-- Whatever the backend does, `run_until_idle` returns, with everything done. -/
theorem Balanced.exits {l : Ledger K} (hparallel : 1 ≤ scheduler.nParallel)
    (hl : Balanced scheduler l) (answers : ℕ → Decoding K) :
    ∃ idle : Ledger K, Loop.Exits (idleStep scheduler answers) (l, 0) idle ∧
      idle.Complete l.submitted := by
  have hstart : InLoop scheduler l.submitted (l, 0) := ⟨hl, rfl⟩
  obtain ⟨idle, hexits⟩ := Loop.exists_exits_of_measure (InLoop scheduler l.submitted)
    (fun p => Service.backlog scheduler.remaining p.1.state.nextId (service p.1.state))
    (fun _ _ hbefore hstep => hbefore.next hparallel hstep) hstart
  obtain ⟨last, hvisit, hleave⟩ := hexits.last
  have hlast : InLoop scheduler l.submitted last :=
    hvisit.invariant _ hstart fun _ _ hbefore hstep => (hbefore.next hparallel hstep).1
  have hcomplete := idleStep_inr hparallel hlast.1 hleave
  rw [hlast.2] at hcomplete
  exact ⟨idle, hexits, hcomplete⟩

/-- With nothing active the next step admits the head of the queue. -/
theorem entering_head? {s : SchedulerState K} (hparallel : 1 ≤ scheduler.nParallel)
    (hcoherent : Coherent scheduler s) (hactive : s.active = []) {r : Request K}
    {rest : List (Request K)} (hpending : s.pending = r :: rest) :
    (scheduler.entering s).head? = some r.id := by
  have hne := admit_active_ne_nil hcoherent hparallel (by simp [hpending])
  have hids := entering_append hcoherent
  have hentering : scheduler.entering s = (scheduler.admitPending s).active.map Request.id := by
    rw [entering, hactive, List.length_nil, List.drop_zero]
  rw [hpending, List.map_cons] at hids
  cases hfirst : scheduler.entering s with
  | nil =>
      rw [hentering, List.map_eq_nil_iff] at hfirst
      exact absurd hfirst hne
  | cons id others =>
      rw [hfirst, List.cons_append] at hids
      rw [List.head?_cons, (List.cons.inj hids).1]

/-- Every accepted request completes once, whatever the backend and the callbacks do. -/
theorem every_request_completes {s₀ : SchedulerState K}
    (hconstruct : scheduler.construct = .ok s₀) (calls : List (Move K)) :
    let l : Ledger K := Runs.run (move scheduler) ⟨s₀, [], []⟩ calls
    l.submitted.Nodup ∧
      (∀ answers, ∃ idle : Ledger K, Loop.Exits (idleStep scheduler answers) (l, 0) idle ∧
        idle.Complete l.submitted) ∧
      ∀ r rest, l.state.active = [] → l.state.pending = r :: rest →
        (scheduler.entering l.state).head? = some r.id := by
  intro l
  obtain ⟨hparallel, rfl⟩ := construct_eq_ok.mp hconstruct
  have hl : Balanced scheduler l := balanced_run scheduler calls
  exact ⟨hl.nodup, hl.exits hparallel,
    fun r rest hactive hpending => entering_head? hparallel hl.rested.coherent hactive hpending⟩

/-- Two requests for one slot; the first batch fails. -/
theorem every_request_completes_two :
    let scheduler : Scheduler ℚ := ⟨.rational, twoTokenBackend 8 (by decide) fun _ _ => none, 1⟩
    let request : Move ℚ := .submit [0, 0] (greedyConfig 3) (some fun _ => .keepGoing)
    let l : Ledger ℚ := Runs.run (move scheduler) ⟨scheduler.initial, [], []⟩
      [request, request, .step (.threw (.modelError "decode failed") fun _ => [])]
    l.submitted = [1, 2] ∧ l.submitted.Nodup ∧
      (∀ answers, ∃ idle : Ledger ℚ, Loop.Exits (idleStep scheduler answers) (l, 0) idle ∧
        idle.Complete l.submitted) ∧
      ∀ r rest, l.state.active = [] → l.state.pending = r :: rest →
        (scheduler.entering l.state).head? = some r.id :=
  ⟨rfl, every_request_completes rfl _⟩

end Ledger

end Reame.Core.Scheduler
