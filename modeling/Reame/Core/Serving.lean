import Reame.Core.SchedulerRefinement

/-!
# Interleaved serving is invisible

Arbitrary sequences of `submit` and `step`.  When no batch fails, a request gets the
tokens, and the ending, that it would get from a scheduler with one slot that never
sees another request; and it does get them, after boundedly many steps
(`serving_invisible`).

Both runs are runs of the same dialogue, so nothing has to be compared step by step:
each is related to `advance` by the refinement, and a loop leaves with one result.
-/

namespace Reame.Core

variable {K : Type*} [Field K] [LinearOrder K]

namespace Scheduler

variable {scheduler : Scheduler K}

/-! ## One call -/

theorem serve_refused_eq {s : SchedulerState K} {fault : Fault}
    (hrefused : scheduler.backend.refuses s.kv (s.active.map sliceOf) = some fault) :
    scheduler.serve s =
      { retire { s with kv := scheduler.backend.spoiled (s.active.map sliceOf) s.kv }
          (s.active.map fun r => (r, some fault)) with active := [] } := by
  simp only [serve, SeqBackend.decodeSeqs, hrefused, retire, List.foldl_map]

/-- A batch the backend refuses ends every active request with its error. -/
theorem serve_refused {s : SchedulerState K} (hcoherent : Coherent scheduler s) {fault : Fault}
    (hrefused : scheduler.backend.refuses s.kv (s.active.map sliceOf) = some fault) :
    Coherent scheduler (scheduler.serve s) ∧ (scheduler.serve s).active = [] ∧
      service (scheduler.serve s) =
        (service s).tick (fun d => .inr ⟨some fault, d.delivered⟩) s.active.length := by
  have hserve := serve_refused_eq hrefused
  have hservice : service (scheduler.serve s) =
      (service s).tick (fun d => .inr ⟨some fault, d.delivered⟩) s.active.length := by
    have hlength : s.active.length = (s.active.map fun r => (r.id, r.dialogue)).length := by simp
    rw [hserve]
    simp only [service, Service.tick, retire_pending, retire_done, retire_nextId, List.map_append]
    rw [hlength, List.take_left, List.drop_left]
    simp [Service.stays, Service.leaves, List.filterMap_map, Function.comp_def, Request.dialogue]
  refine ⟨?_, by rw [hserve], hservice⟩
  rw [hserve]
  have hturn : ∀ r ∈ s.active, Turn scheduler r (.inr (r, some fault)) :=
    fun r _ => .leaves (some fault) rfl rfl
  have hclear : ∀ k : ℕ, s.slotUsed[k]? = some false →
      scheduler.backend.spoiled (s.active.map sliceOf) s.kv k = [] := by
    intro k hk
    rw [SeqBackend.spoiled, if_neg (hcoherent.free_notMem hk), hcoherent.clear k hk]
  simpa [turnOver] using hcoherent.turnOver hturn (fun _ _ _ hstays => by cases hstays) hclear

theorem coherent_serve {s : SchedulerState K} (hcoherent : Coherent scheduler s) :
    Coherent scheduler (scheduler.serve s) := by
  cases hrefused : scheduler.backend.refuses s.kv (s.active.map sliceOf) with
  | none => exact (serve_ok hcoherent hrefused).1
  | some fault => exact (serve_refused hcoherent hrefused).1

theorem serve_pending {s : SchedulerState K} (hcoherent : Coherent scheduler s) :
    (scheduler.serve s).pending = s.pending := by
  cases hrefused : scheduler.backend.refuses s.kv (s.active.map sliceOf) with
  | none =>
      simp only [serve, SeqBackend.decodeSeqs, hrefused, (decodeSlices_active hcoherent).1,
        settle_eq, retire_pending]
  | some fault => rw [serve_refused_eq hrefused, retire_pending]

theorem admit_spec {s : SchedulerState K} (hcoherent : Coherent scheduler s) :
    Coherent scheduler (scheduler.admitPending s) ∧ service (scheduler.admitPending s) = service s := by
  obtain ⟨hafter, hservice, -⟩ := admitFrom_spec s.pending s hcoherent
  exact ⟨hafter, hservice⟩

theorem coherent_apply {s : SchedulerState K} (hcoherent : Coherent scheduler s) (event : Event K) :
    Coherent scheduler (scheduler.apply s event) := by
  cases event with
  | submit prompt gen onToken =>
      rcases submit_cases scheduler s prompt gen onToken with
        ⟨fault, hsubmit⟩ | ⟨callback, s', -, hsubmit, -, hkeep, -⟩
      · rw [apply, hsubmit]
        exact hcoherent
      · rw [apply, hsubmit]
        exact hkeep hcoherent
  | step =>
      rw [apply, step]
      dsimp only
      split
      · exact (admit_spec hcoherent).1
      · exact coherent_serve (admit_spec hcoherent).1

/-- Every state reached by calls is coherent. -/
theorem coherent_run {s : SchedulerState K} (hcoherent : Coherent scheduler s)
    (events : List (Event K)) : Coherent scheduler (scheduler.run s events) := by
  induction events generalizing s with
  | nil => exact hcoherent
  | cons event rest ih => exact ih (coherent_apply hcoherent event)

/-- A step whose batch is not refused is one tick. -/
theorem service_step {s : SchedulerState K} (hcoherent : Coherent scheduler s)
    (hok : scheduler.backend.refuses (scheduler.admitPending s).kv
      ((scheduler.admitPending s).active.map sliceOf) = none) :
    service (scheduler.step s).1 =
      (service s).tick scheduler.advance (scheduler.admitPending s).active.length := by
  obtain ⟨hadmitted, hservice⟩ := admit_spec hcoherent
  rw [step]
  dsimp only
  split
  · rename_i hnil
    rw [hservice, hnil]
    simp [Service.tick]
  · rw [(serve_ok hadmitted hok).2, hservice]

/-! ## What callers can see -/

theorem lookup_of_mem {α β : Type*} [BEq α] [LawfulBEq α] {l : List (α × β)} {a : α} {b : β}
    (hnodup : (l.map Prod.fst).Nodup) (hmem : (a, b) ∈ l) : l.lookup a = some b := by
  induction l with
  | nil => cases hmem
  | cons head rest ih =>
      obtain ⟨hfresh, hrest⟩ := List.nodup_cons.mp hnodup
      rcases List.mem_cons.mp hmem with rfl | hlater
      · exact List.lookup_cons_self
      · obtain ⟨key, value⟩ := head
        have hne : (a == key) = false := by
          rw [beq_eq_false_iff_ne]
          rintro rfl
          exact hfresh (List.mem_map.mpr ⟨_, hlater, rfl⟩)
        rw [List.lookup_cons, hne]
        exact ih hrest hlater

theorem observe_done {s : SchedulerState K} (hcoherent : Coherent scheduler s) {id : ℕ}
    {outcome : Outcome} (hdone : (id, outcome) ∈ (service s).done) :
    finished s id = true ∧ error s id = outcome.error ∧ received s id = outcome.delivered := by
  have hlookup : s.done.lookup id = some outcome :=
    lookup_of_mem hcoherent.numbered.recorded hdone
  simp [finished, error, received, hlookup]

theorem observe_live {s : SchedulerState K} (hcoherent : Coherent scheduler s) {id : ℕ}
    {d : Dialogue K} (hlive : (id, d) ∈ (service s).live) :
    finished s id = false ∧ received s id = d.delivered := by
  have hlookup : s.done.lookup id = none := by
    rw [List.lookup_eq_none_iff]
    intro record hrecord
    simpa using hcoherent.numbered.apart _ hlive record hrecord
  obtain ⟨r, hr, heq⟩ := List.mem_map.mp hlive
  obtain ⟨hid, hdialogue⟩ := Prod.mk.injEq .. ▸ heq
  have hfind : (s.active ++ s.pending).find? (·.id == id) = some r := by
    cases hfind : (s.active ++ s.pending).find? (·.id == id) with
    | none => exact absurd (by simpa using hid) (List.find?_eq_none.mp hfind r hr)
    | some r' =>
        have hmem := List.mem_of_find?_eq_some hfind
        have hid' : r'.id = id := by simpa using List.find?_some hfind
        have hnodup := hcoherent.numbered.nodup
        simp only [service, List.map_map] at hnodup
        rw [List.inj_on_of_nodup_map hnodup hmem hr (by simp [hid, hid'])]
  refine ⟨by simp [finished, hlookup], ?_⟩
  rw [received, hlookup, hfind, ← hdialogue]
  rfl

/-! ## Serving is invisible -/

section Invisible

variable (hok : ∀ kv slices, scheduler.backend.refuses kv slices = none)
include hok

theorem tracked_run {s : SchedulerState K} (hcoherent : Coherent scheduler s) {first : Dialogue K}
    {id : ℕ} (htracked : Service.Tracked scheduler.advance first id (service s))
    (events : List (Event K)) :
    Service.Tracked scheduler.advance first id (service (scheduler.run s events)) := by
  induction events generalizing s with
  | nil => exact htracked
  | cons event rest ih =>
      refine ih (coherent_apply hcoherent event) ?_
      cases event with
      | submit prompt gen onToken =>
          rcases submit_cases scheduler s prompt gen onToken with
            ⟨fault, hsubmit⟩ | ⟨callback, s', -, hsubmit, hservice, -⟩
          · rw [apply, hsubmit]
            exact htracked
          · rw [apply, hsubmit]
            dsimp only
            rw [hservice]
            exact htracked.submit _
      | step =>
          rw [apply, service_step hcoherent (hok _ _)]
          exact htracked.tick _

/-- Once recorded, always recorded. -/
theorem done_mono {s : SchedulerState K} (hcoherent : Coherent scheduler s)
    {record : ℕ × Outcome} (hrecord : record ∈ (service s).done) (events : List (Event K)) :
    record ∈ (service (scheduler.run s events)).done := by
  induction events generalizing s with
  | nil => exact hrecord
  | cons event rest ih =>
      refine ih (coherent_apply hcoherent event) ?_
      cases event with
      | submit prompt gen onToken =>
          rcases submit_cases scheduler s prompt gen onToken with
            ⟨fault, hsubmit⟩ | ⟨callback, s', -, hsubmit, hservice, -⟩
          · rw [apply, hsubmit]
            exact hrecord
          · rw [apply, hsubmit]
            dsimp only
            rw [hservice]
            exact hrecord
      | step =>
          rw [apply, service_step hcoherent (hok _ _)]
          exact List.mem_append_right _ hrecord

/-- The turns a dialogue may still take. -/
def turnsLeft (scheduler : Scheduler K) (d : Dialogue K) : ℕ :=
  scheduler.nCtx + 1 - d.history.length

omit hok in
theorem turnsLeft_pos {s : SchedulerState K} (hcoherent : Coherent scheduler s) :
    ∀ job ∈ (service s).live, 0 < turnsLeft scheduler job.2 := by
  intro job hjob
  obtain ⟨r, hr, rfl⟩ := List.mem_map.mp hjob
  have hfits : r.history.length ≤ scheduler.nCtx := by
    rcases List.mem_append.mp hr with hr | hr
    · exact (hcoherent.seated r hr).fits
    · exact (hcoherent.waiting r hr).fits
  simp only [turnsLeft, Request.dialogue]
  omega

omit hok in
theorem turnsLeft_advance (before after : Dialogue K)
    (hadvance : scheduler.advance before = .inl after) :
    scheduler.turnsLeft after < scheduler.turnsLeft before := by
  obtain ⟨next, hhistory, -, hroom, -⟩ := advance_inl hadvance
  simp only [turnsLeft, hhistory, List.length_append, List.length_singleton]
  omega

/-- A request is finished once there have been as many steps as turns were left for
it and those before it. -/
theorem finished_of_backlog (hparallel : 1 ≤ scheduler.nParallel) {s : SchedulerState K}
    (hcoherent : Coherent scheduler s) {first : Dialogue K} {id : ℕ}
    (htracked : Service.Tracked scheduler.advance first id (service s)) {events : List (Event K)}
    (henough : (service s).backlog (turnsLeft scheduler) id ≤ stepCount events) :
    ∃ outcome, (id, outcome) ∈ (service (scheduler.run s events)).done := by
  rcases htracked with ⟨d, hlive, hvisit⟩ | ⟨outcome, hdone, -⟩
  · induction events generalizing s d with
    | nil =>
        have := Service.backlog_pos (turnsLeft_pos hcoherent) hlive
        simp only [stepCount, List.countP_nil] at henough
        omega
    | cons event rest ih =>
        have hcoherent' := coherent_apply hcoherent event
        have htracked := tracked_run hok hcoherent (.inl ⟨d, hlive, hvisit⟩) [event]
        change Service.Tracked _ _ _ (service (scheduler.apply s event)) at htracked
        rcases htracked with ⟨d', hlive', hvisit'⟩ | ⟨outcome, hdone, -⟩
        · refine ih hcoherent' ?_ d' hlive' hvisit'
          cases event with
          | submit prompt gen onToken =>
              have hid := hcoherent.numbered.live_lt _ hlive
              have hcount : stepCount (.submit prompt gen onToken :: rest) = stepCount rest := by
                simp [stepCount]
              rw [hcount] at henough
              rcases submit_cases scheduler s prompt gen onToken with
                ⟨fault, hsubmit⟩ | ⟨callback, s', -, hsubmit, hservice, -⟩
              · rw [apply, hsubmit]
                exact henough
              · rw [apply, hsubmit]
                dsimp only
                rw [hservice, Service.backlog_submit hid]
                exact henough
          | step =>
              have hcount : stepCount (.step :: rest) = stepCount rest + 1 := by
                simp [stepCount]
              have hne : s.active ++ s.pending ≠ [] := by
                intro hnil
                rw [service, hnil] at hlive
                cases hlive
              have hserved : 0 < (scheduler.admitPending s).active.length :=
                List.length_pos_iff.mpr (admit_active_ne_nil hcoherent hparallel hne)
              have hid : (id, d).1 ≤ id := le_rfl
              have hfalls := Service.backlog_tick hcoherent.numbered (turnsLeft_pos hcoherent)
                turnsLeft_advance hserved hlive hid
              rw [apply, service_step hcoherent (hok _ _)]
              omega
        · exact ⟨outcome, done_mono hok hcoherent' hdone rest⟩
  · exact ⟨outcome, done_mono hok hcoherent hdone events⟩

omit hok in
/-- A scheduler with a single slot over the same backend, the request submitted to it,
and `k` steps. -/
def soloRun (scheduler : Scheduler K) (prompt : List TokenId) (gen : GenerationConfig K)
    (onToken : Option TokenCallback) (k : ℕ) : SchedulerState K :=
  let solo : Scheduler K := { scheduler with nParallel := 1 }
  solo.run solo.initial (.submit prompt gen onToken :: List.replicate k .step)

/-- From its submission on, a request is somewhere on the way its dialogue takes alone,
ends as it ends, and does end. -/
theorem submitted_follows_dialogue (hparallel : 1 ≤ scheduler.nParallel) {s s' : SchedulerState K}
    (hcoherent : Coherent scheduler s) {prompt : List TokenId} {gen : GenerationConfig K}
    {callback : TokenCallback} {id : ℕ}
    (hsubmit : scheduler.submit s prompt gen (some callback) = .ok (id, s')) {outcome : Outcome}
    (hexits : Loop.Exits scheduler.advance (scheduler.start prompt gen callback) outcome) :
    (∀ later, received (scheduler.run s' later) id <+: outcome.delivered ∧
        (finished (scheduler.run s' later) id = true →
          received (scheduler.run s' later) id = outcome.delivered ∧
            error (scheduler.run s' later) id = outcome.error)) ∧
      ∃ enough, ∀ later, enough ≤ stepCount later →
        finished (scheduler.run s' later) id = true := by
  rcases submit_cases scheduler s prompt gen (some callback) with
    ⟨fault, hfail⟩ | ⟨callback', s'', hcallback, hok', hservice, hkeep, -⟩
  · rw [hfail] at hsubmit
    cases hsubmit
  · rw [hok'] at hsubmit
    cases hsubmit
    cases hcallback
    have hcoherent' := hkeep hcoherent
    have htracked : Service.Tracked scheduler.advance (scheduler.start prompt gen callback)
        s.nextId (service s') := by
      rw [hservice]
      exact .of_submit (service s) _
    refine ⟨fun later => ?_, (service s').backlog (turnsLeft scheduler) s.nextId,
      fun later hlater => ?_⟩
    · have hafter := coherent_run hcoherent' later
      rcases tracked_run hok hcoherent' htracked later with
        ⟨d, hlive, hvisit⟩ | ⟨outcome', hdone, hexits'⟩
      · obtain ⟨hnot, hreceived⟩ := observe_live hafter hlive
        rw [hreceived, hnot]
        exact ⟨prefix_delivered (hexits.after_visits hvisit), by simp⟩
      · obtain ⟨-, herror, hreceived⟩ := observe_done hafter hdone
        rw [hreceived, herror, hexits'.unique hexits]
        exact ⟨List.prefix_rfl, fun _ => ⟨rfl, rfl⟩⟩
    · obtain ⟨outcome', hdone⟩ := finished_of_backlog hok hparallel hcoherent' htracked hlater
      exact (observe_done (coherent_run hcoherent' later) hdone).1

/-- A request that is accepted gets exactly what it would get alone: whatever else is
submitted, and whenever, its tokens begin those of the solo run, they are those of the
solo run when it is finished, with the same error, and enough steps finish it. -/
theorem serving_invisible (hparallel : 1 ≤ scheduler.nParallel) (events : List (Event K))
    {prompt : List TokenId} {gen : GenerationConfig K} {onToken : Option TokenCallback} {id : ℕ}
    {s : SchedulerState K}
    (hsubmit : scheduler.submit (scheduler.run scheduler.initial events) prompt gen onToken =
      .ok (id, s)) :
    ∃ enough, ∀ k ≥ enough,
      finished (soloRun scheduler prompt gen onToken k) 1 = true ∧
      (∀ later, received (scheduler.run s later) id <+:
          received (soloRun scheduler prompt gen onToken k) 1 ∧
        (finished (scheduler.run s later) id = true →
          received (scheduler.run s later) id =
              received (soloRun scheduler prompt gen onToken k) 1 ∧
            error (scheduler.run s later) id =
              error (soloRun scheduler prompt gen onToken k) 1)) ∧
      ∃ bound, ∀ later, bound ≤ stepCount later →
        finished (scheduler.run s later) id = true := by
  obtain ⟨callback, rfl⟩ : ∃ callback, onToken = some callback := by
    rcases submit_cases scheduler (scheduler.run scheduler.initial events) prompt gen
      onToken with ⟨fault, hfail⟩ | ⟨callback, -, hcallback, -⟩
    · rw [hfail] at hsubmit
      cases hsubmit
    · exact ⟨callback, hcallback⟩
  obtain ⟨outcome, hexits⟩ := exists_outcome scheduler
    (scheduler.start prompt gen callback)
  obtain ⟨hshared, hends⟩ := submitted_follows_dialogue hok hparallel
    (coherent_run (coherent_initial scheduler) events) hsubmit hexits
  -- The solo scheduler accepts the same request, as its number 1.
  let solo : Scheduler K := { scheduler with nParallel := 1 }
  have hsolo : ∃ s', solo.submit solo.initial prompt gen (some callback) = .ok (1, s') := by
    rcases submit_cases scheduler (scheduler.run scheduler.initial events) prompt gen
      (some callback) with ⟨fault, hfail⟩ | -
    · rw [hfail] at hsubmit
      cases hsubmit
    · unfold submit at hsubmit ⊢
      split at hsubmit
      · cases hsubmit
      · rename_i hne
        split at hsubmit
        · cases hsubmit
        · rename_i hfits
          rw [if_neg hne, if_neg (show ¬ solo.nCtx < prompt.length from hfits)]
          exact ⟨_, rfl⟩
  obtain ⟨s', hsolo⟩ := hsolo
  have hok' : ∀ kv slices, solo.backend.refuses kv slices = none := hok
  obtain ⟨halone, enough, henough⟩ := submitted_follows_dialogue hok' le_rfl
    (coherent_initial solo) hsolo hexits
  have hrun : ∀ k, soloRun scheduler prompt gen (some callback) k =
      solo.run s' (List.replicate k .step) := by
    intro k
    change solo.run (solo.apply solo.initial (.submit prompt gen (some callback))) _ = _
    rw [apply, hsolo]
  refine ⟨enough, fun k hk => ?_⟩
  have hfinished := henough (List.replicate k .step)
    (by simpa [stepCount, List.countP_replicate] using hk)
  obtain ⟨hreceived, herror⟩ := (halone (List.replicate k .step)).2 hfinished
  rw [hrun, hreceived, herror]
  exact ⟨hfinished, hshared, hends⟩

end Invisible

/-- A backend over two tokens that always prefers the first, and whose second token
ends a generation. -/
def twoTokenBackend (nCtx : ℕ) (hctx : nCtx < 2 ^ 32)
    (refuses : KvCache → List SeqSlice → Option Fault) : SeqBackend K where
  vocabSize := 2
  contextLength := nCtx
  eosToken := 1
  isEog token := token == 1
  logits _ := [1, 0]
  tokenize _ _ := []
  detokenize _ := []
  tokenPiece _ := []
  vocabSize_pos := Nat.two_pos
  length_logits _ := LlamaBackend.length_firstOfTwo
  refuses
  contextLength_lt := hctx

/-- Greedy decoding of at most `maxTokens` tokens, without penalty. -/
def greedyConfig (maxTokens : ℤ) : GenerationConfig K where
  maxTokens
  temperature := 0
  topP := 1
  repeatPenalty := 1
  repeatLastN := 0
  seed := 42
  echoPrompt := false

/-- A second request with the prompt of one already under way. -/
theorem serving_invisible_clone :
    let scheduler : Scheduler ℚ := ⟨.rational, twoTokenBackend 8 (by decide) fun _ _ => none, 2⟩
    let request : Event ℚ := .submit [0, 0] (greedyConfig 3) (some fun _ => .keepGoing)
    ∃ s, scheduler.submit (scheduler.run scheduler.initial [request, .step]) [0, 0]
        (greedyConfig 3) (some fun _ => .keepGoing) = .ok (2, s) ∧
      ∃ enough, ∀ k ≥ enough, ∃ bound, ∀ later, bound ≤ stepCount later →
        received (scheduler.run s later) 2 =
          received (soloRun scheduler [0, 0] (greedyConfig 3) (some fun _ => .keepGoing) k) 1 := by
  intro scheduler request
  obtain ⟨s, hsubmit⟩ : ∃ s, scheduler.submit
      (scheduler.run scheduler.initial [request, .step]) [0, 0] (greedyConfig 3)
      (some fun _ => .keepGoing) = .ok (2, s) := ⟨_, rfl⟩
  refine ⟨s, hsubmit, ?_⟩
  obtain ⟨enough, henough⟩ := serving_invisible (fun _ _ => rfl)
    (show 1 ≤ scheduler.nParallel by decide) [request, .step] hsubmit
  refine ⟨enough, fun k hk => ?_⟩
  obtain ⟨-, hshared, bound, hends⟩ := henough k hk
  exact ⟨bound, fun later hlater => ((hshared later).2 (hends later hlater)).1⟩

end Scheduler

end Reame.Core
