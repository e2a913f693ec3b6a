import Reame.Core.Serving
import Reame.Foundation.Runs

/-!
# The scheduler against any backend

The backend of a `Scheduler` answers two equal batches in the same way.  What the scheduler
keeps to itself does not rest on that, so this file lets every call of `decode_seqs` come to
whatever it likes: any logits for the slices, or an exception at any call, which may leave
anything in the sequences of the batch.

`stepWith` is `step` with what its `decode_seqs` comes to as an argument, and
`exists_moves` says that a run of the scheduler with its own backend is one of these runs.
Whatever the answers are, each active request takes its own turn (`serveWith_eq`), and so
every state reached is `Rested`: the invariant `Coherent` of the refinement, with no request
left that still waits for its prefill.
-/

namespace Reame.Core

/-- What a call of `decode_seqs` comes to: logits for the slice of each sequence, or an
exception and what it leaves in the sequences of the batch. -/
inductive Decoding (K : Type*)
  | returned (logits : ℤ → List K)
  | threw (fault : Fault) (left : KvCache)

namespace Scheduler

variable {K : Type*} [Field K] [LinearOrder K] (scheduler : Scheduler K)

/-- The cache after a decoded batch: each slice continues its sequence. -/
def extended (slices : List SeqSlice) (kv : KvCache) : KvCache :=
  slices.foldl (fun kv slice => Function.update kv slice.seqId (kv slice.seqId ++ slice.tokens)) kv

/-- The cache after a batch that has failed: sequences without a slice are as they were. -/
def overwritten (slices : List SeqSlice) (left kv : KvCache) : KvCache := fun seqId =>
  if seqId ∈ slices.map SeqSlice.seqId then left seqId else kv seqId

/-- `serve`, with what `decode_seqs` comes to. -/
def serveWith (answer : Decoding K) (s : SchedulerState K) : SchedulerState K :=
  let slices := s.active.map sliceOf
  match answer with
  | .threw fault left =>
      { s.active.foldl (fun s r => finish s r (some fault))
          { s with kv := overwritten slices left s.kv } with active := [] }
  | .returned logits =>
      let (stillActive, s) := scheduler.settle s.active slices
        (slices.map fun slice => logits slice.seqId) { s with kv := extended slices s.kv }
      { s with active := stillActive }

/-- `step`, with what `decode_seqs` comes to. -/
def stepWith (answer : Decoding K) (s : SchedulerState K) : SchedulerState K × Bool :=
  let s := scheduler.admitPending s
  if s.active = [] then (s, s.pending ≠ [])
  else
    let s := scheduler.serveWith answer s
    (s, s.active ≠ [] ∨ s.pending ≠ [])

/-- A call made on a scheduler; a `step` comes with what its `decode_seqs` comes to. -/
inductive Move (K : Type*)
  | submit (prompt : List TokenId) (gen : GenerationConfig K) (onToken : Option TokenCallback)
  | step (answer : Decoding K)

/-- One call; a `submit` that throws changes nothing. -/
def move (s : SchedulerState K) : Move K → SchedulerState K
  | .submit prompt gen onToken => scheduler.apply s (.submit prompt gen onToken)
  | .step answer => (scheduler.stepWith answer s).1

/-- Between two calls every active request has its history decoded but for the last token. -/
structure Rested (s : SchedulerState K) : Prop where
  coherent : Coherent scheduler s
  warm : ∀ r ∈ s.active, r.needsPrefill = false

/-! ## Every request takes its own turn -/

/-- What a request makes of the answer. -/
def turnWith : Decoding K → Request K → Request K ⊕ (Request K × Option Fault)
  | .returned logits, r => scheduler.emitToken (decoded r) (logits r.seqId)
  | .threw fault _, r => .inr (r, some fault)

/-- What an answer makes of the cache. -/
def kvWith (slices : List SeqSlice) (kv : KvCache) : Decoding K → KvCache
  | .returned _ => extended slices kv
  | .threw _ left => overwritten slices left kv

omit [Field K] [LinearOrder K] in
theorem sliceOf_seqId (r : Request K) : (sliceOf r).seqId = r.seqId := by
  unfold sliceOf
  split <;> rfl

theorem serveWith_eq (answer : Decoding K) (s : SchedulerState K) :
    scheduler.serveWith answer s =
      turnOver s (kvWith (s.active.map sliceOf) s.kv answer) (scheduler.turnWith answer) := by
  cases answer with
  | threw fault left => simp [serveWith, turnOver, turnWith, kvWith, retire, List.foldl_map]
  | returned logits =>
      have hlogits : (s.active.map sliceOf).map (fun slice => logits slice.seqId) =
          s.active.map fun r => logits r.seqId := by
        rw [List.map_map]
        exact List.map_congr_left fun r _ => congrArg logits (sliceOf_seqId r)
      simp only [serveWith, hlogits, settle_map]
      rfl

theorem turn_turnWith (answer : Decoding K) (r : Request K) :
    Turn scheduler r (scheduler.turnWith answer r) := by
  cases answer with
  | returned logits => exact turn_emitToken scheduler r _
  | threw fault left => exact .leaves (some fault) rfl rfl

variable {scheduler}

omit [Field K] [LinearOrder K] in
theorem decodeSlices_snd (backend : SeqBackend K) (slices : List SeqSlice) (kv : KvCache) :
    (backend.decodeSlices slices kv).2 = extended slices kv := by
  induction slices generalizing kv with
  | nil => rfl
  | cons slice rest ih => exact ih _

/-- What a batch leaves in the cache of a coherent state, if it is decoded. -/
theorem Coherent.extended {s : SchedulerState K} (hcoherent : Coherent scheduler s) :
    (∀ r ∈ s.active, Scheduler.extended (s.active.map sliceOf) s.kv r.seqId = r.history) ∧
      ∀ k : ℕ, s.slotUsed[k]? = some false →
        Scheduler.extended (s.active.map sliceOf) s.kv k = [] := by
  obtain ⟨-, hkv, hclear⟩ := decodeSlices_active hcoherent
  rw [decodeSlices_snd] at hkv hclear
  exact ⟨hkv, hclear⟩

theorem Coherent.serveWith {s : SchedulerState K} (hcoherent : Coherent scheduler s)
    (answer : Decoding K) : Coherent scheduler (scheduler.serveWith answer s) := by
  rw [serveWith_eq]
  cases answer with
  | returned logits =>
      obtain ⟨hkv, hclear⟩ := hcoherent.extended
      exact hcoherent.turnOver (fun r _ => turn_turnWith scheduler _ r)
        (fun r hr _ _ => hkv r hr) hclear
  | threw fault left =>
      refine hcoherent.turnOver (fun r _ => turn_turnWith scheduler _ r)
        (fun _ _ _ hstays => by cases hstays) fun k hk => ?_
      rw [kvWith, overwritten, if_neg (hcoherent.free_notMem hk), hcoherent.clear k hk]

/-- Whoever is active after a batch has had a slice in it. -/
theorem serveWith_warm (answer : Decoding K) (s : SchedulerState K) :
    ∀ r ∈ (scheduler.serveWith answer s).active, r.needsPrefill = false := by
  intro after hafter
  rw [serveWith_eq] at hafter
  obtain ⟨r, hr, hstay⟩ := List.mem_filterMap.mp hafter
  have hturn := turn_turnWith scheduler answer r
  rw [Sum.getLeft?_eq_some_iff.mp hstay] at hturn
  cases hturn with
  | stays next hhistory hroom hid hseq hprompt hpast hwarm => exact hwarm

/-! ## Runs -/

theorem construct_eq_ok {s : SchedulerState K} :
    scheduler.construct = .ok s ↔ 1 ≤ scheduler.nParallel ∧ s = scheduler.initial := by
  rw [construct]
  split
  · simp only [reduceCtorEq, false_iff, not_and]
    omega
  · rw [Except.ok.injEq, eq_comm]
    exact (and_iff_right (by omega)).symm

theorem rested_initial : Rested scheduler scheduler.initial :=
  ⟨coherent_initial scheduler, by simp [initial]⟩

theorem Rested.move {s : SchedulerState K} (hrested : Rested scheduler s) (call : Move K) :
    Rested scheduler (scheduler.move s call) := by
  cases call with
  | submit prompt gen onToken =>
      refine ⟨coherent_apply hrested.coherent (.submit prompt gen onToken), ?_⟩
      rcases submit_cases scheduler s prompt gen onToken with
        ⟨fault, hsubmit⟩ | ⟨callback, s', -, hsubmit, -, -, rfl⟩
      · rw [Scheduler.move, apply, hsubmit]
        exact hrested.warm
      · rw [Scheduler.move, apply, hsubmit]
        exact hrested.warm
  | step answer =>
      have hadmitted := (admit_spec hrested.coherent).1
      rw [Scheduler.move, stepWith]
      dsimp only
      split
      · rename_i hnil
        exact ⟨hadmitted, by simp [hnil]⟩
      · exact ⟨hadmitted.serveWith answer, serveWith_warm answer _⟩

/-- Every state reached by calls is rested. -/
theorem Rested.run {s : SchedulerState K} (hrested : Rested scheduler s) (calls : List (Move K)) :
    Rested scheduler (Runs.run scheduler.move s calls) := by
  induction calls generalizing s with
  | nil => exact hrested
  | cons call rest ih => exact ih (hrested.move call)

/-! ## The scheduler's own backend -/

variable (scheduler) in
/-- What the backend's `decode_seqs` comes to in a state. -/
def answer (s : SchedulerState K) : Decoding K :=
  let slices := s.active.map sliceOf
  match scheduler.backend.refuses s.kv slices with
  | some fault => .threw fault (scheduler.backend.spoils s.kv slices)
  | none => .returned fun seqId => scheduler.backend.logits (Scheduler.extended slices s.kv seqId)

/-- A batch of a coherent state, decoded by the backend of the scheduler. -/
theorem serve_eq {s : SchedulerState K} (hcoherent : Coherent scheduler s) :
    scheduler.serve s = scheduler.serveWith (scheduler.answer s) s := by
  rw [serveWith_eq, answer]
  cases hrefused : scheduler.backend.refuses s.kv (s.active.map sliceOf) with
  | some fault =>
      have hspoiled : scheduler.backend.spoiled (s.active.map sliceOf) s.kv =
          overwritten (s.active.map sliceOf)
            (scheduler.backend.spoils s.kv (s.active.map sliceOf)) s.kv := rfl
      rw [serve_refused_eq hrefused, hspoiled]
      simp [turnOver, turnWith, kvWith]
  | none =>
      have hhistory : ∀ r ∈ s.active,
          scheduler.emitToken (decoded r) (scheduler.backend.logits
            (Scheduler.extended (s.active.map sliceOf) s.kv r.seqId)) =
          scheduler.emitToken (decoded r) (scheduler.backend.logits r.history) := by
        intro r hr
        rw [hcoherent.extended.1 r hr]
      simp only [serve, SeqBackend.decodeSeqs, hrefused, (decodeSlices_active hcoherent).1,
        settle_map, decodeSlices_snd, turnOver, turnWith, kvWith]
      rw [List.filterMap_congr fun r hr => congrArg Sum.getLeft? (hhistory r hr),
        List.filterMap_congr fun r hr => congrArg Sum.getRight? (hhistory r hr)]

theorem step_eq {s : SchedulerState K} (hcoherent : Coherent scheduler s) :
    scheduler.step s = scheduler.stepWith (scheduler.answer (scheduler.admitPending s)) s := by
  simp only [step, stepWith, serve_eq (admit_spec hcoherent).1]

/-- A run against the scheduler's own backend is a run against some backend. -/
theorem exists_moves {s : SchedulerState K} (hcoherent : Coherent scheduler s)
    (events : List (Event K)) :
    ∃ calls, scheduler.run s events = Runs.run scheduler.move s calls := by
  induction events generalizing s with
  | nil => exact ⟨[], rfl⟩
  | cons event rest ih =>
      obtain ⟨calls, hcalls⟩ := ih (coherent_apply hcoherent event)
      cases event with
      | submit prompt gen onToken => exact ⟨.submit prompt gen onToken :: calls, hcalls⟩
      | step =>
          refine ⟨.step (scheduler.answer (scheduler.admitPending s)) :: calls, hcalls.trans ?_⟩
          rw [Runs.run_cons, Scheduler.move, ← step_eq hcoherent]
          rfl

end Scheduler

end Reame.Core
