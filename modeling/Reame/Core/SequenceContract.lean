import Reame.Core.AnyBackend

/-!
# The scheduler meets the contract of the sequences

A backend with several sequences relies on its caller: `decode_seqs` continues every
sequence where it ends, and `copy_seq` copies into an empty sequence what is there to be
copied.  `stepCalls` lists the calls one `step` makes, in order, and `run_stepCalls` says
that replaying them gives the cache that `step` leaves.

`sequence_contract_met` follows a run of any calls against any backend.  Between two calls
the used slots are those of the active requests, whose sequences hold their histories but
for the last token, and all the others are empty; and whatever `step` calls next, it calls
in a cache in which it may.
-/

namespace Reame.Core

/-- A call that reads or changes the sequences; `decode_seqs` with what it comes to. -/
inductive SeqCall (K : Type*)
  | decodeSeqs (slices : List SeqSlice) (answer : Decoding K)
  | clearSeq (seqId : ℤ)
  | copySeq (src dst : ℤ) (n : ℕ)

/-- The tokens a request came with. -/
def Request.prompt {K : Type*} (r : Request K) : List TokenId := r.history.take r.promptLen

namespace Scheduler

variable {K : Type*} [Field K] [LinearOrder K] (scheduler : Scheduler K)

/-! ## The calls of a step -/

/-- The call at the end of an iteration of `admit`. -/
def activateCalls (s : SchedulerState K) (donor : Option (Request K)) (r : Request K) :
    List (SeqCall K) :=
  match donor with
  | some d => [.copySeq d.seqId (takeSlot s.slotUsed r).2.seqId (r.promptLen - 1)]
  | none => []

/-- The calls of the loop of `admit`. -/
def admitCalls : List (Request K) → SchedulerState K → List (SeqCall K)
  | [], _ => []
  | r :: rest, s =>
      if scheduler.nParallel ≤ s.active.length ∨
          scheduler.nCtx < (cellsUsed s.active + r.history.length % 2 ^ 32) % 2 ^ 32 then []
      else
        match donorFor s.active r with
        | some d =>
            if d.nPast < d.promptLen then []
            else activateCalls s (some d) r ++ admitCalls rest (activate s (some d) r)
        | none => activateCalls s none r ++ admitCalls rest (activate s none r)

/-- The call of `finish`. -/
def finishCalls (r : Request K) : List (SeqCall K) :=
  if 0 ≤ r.seqId then [.clearSeq r.seqId] else []

/-- The calls after admission: `decode_seqs`, then one `finish` for each request that leaves. -/
def serveCalls (answer : Decoding K) (s : SchedulerState K) : List (SeqCall K) :=
  .decodeSeqs (s.active.map sliceOf) answer ::
    (s.active.filterMap fun r => (scheduler.turnWith answer r).getRight?).flatMap
      fun p => finishCalls p.1

/-- The calls of `step`. -/
def stepCalls (answer : Decoding K) (s : SchedulerState K) : List (SeqCall K) :=
  let admitted := scheduler.admitPending s
  scheduler.admitCalls s.pending s ++
    if admitted.active = [] then [] else scheduler.serveCalls answer admitted

/-- What a call does to the cache. -/
def effect (kv : KvCache) : SeqCall K → KvCache
  | .decodeSeqs slices answer => kvWith slices kv answer
  | .clearSeq seqId => Core.clearSeq kv seqId
  | .copySeq src dst n => Core.copySeq kv src dst n

/-! ### Their effect is that of the step -/

omit [Field K] [LinearOrder K] in
theorem run_finishCalls (s : SchedulerState K) (leaving : List (Request K × Option Fault)) :
    Runs.run effect s.kv (leaving.flatMap fun p => finishCalls p.1) = (retire s leaving).kv := by
  induction leaving generalizing s with
  | nil => rfl
  | cons p rest ih =>
      have hfinish : Runs.run effect s.kv (finishCalls p.1) = (finish s p.1 p.2).kv := by
        rw [finishCalls, finish]
        dsimp only
        split <;> rfl
      rw [List.flatMap_cons, Runs.run_append, hfinish, ih, retire, retire, List.foldl_cons]

omit [Field K] [LinearOrder K] in
theorem run_activateCalls (s : SchedulerState K) (donor : Option (Request K)) (r : Request K) :
    Runs.run effect s.kv (activateCalls s donor r) = (activate s donor r).kv := by
  unfold activateCalls activate takeSlot
  cases donor <;> cases s.slotUsed.findIdx? (! ·) <;> rfl

/-- An iteration of `admit`: it is the last one, or the request is activated. -/
theorem admit_cases (r : Request K) (rest : List (Request K)) (s : SchedulerState K) :
    (scheduler.admitFrom (r :: rest) s = { s with pending := r :: rest } ∧
        scheduler.admitCalls (r :: rest) s = []) ∨
      ∃ donor : Option (Request K), (s.active.length : ℤ) < scheduler.nParallel ∧
        (∀ d ∈ donor, donorFor s.active r = some d ∧ ¬ d.nPast < d.promptLen) ∧
        scheduler.admitFrom (r :: rest) s = scheduler.admitFrom rest (activate s donor r) ∧
        scheduler.admitCalls (r :: rest) s =
          activateCalls s donor r ++ scheduler.admitCalls rest (activate s donor r) := by
  rw [admitFrom, admitCalls]
  by_cases hblocked : scheduler.nParallel ≤ s.active.length ∨
      scheduler.nCtx < (cellsUsed s.active + r.history.length % 2 ^ 32) % 2 ^ 32
  · rw [if_pos hblocked, if_pos hblocked]
    exact .inl ⟨rfl, rfl⟩
  rw [if_neg hblocked, if_neg hblocked]
  rw [not_or, not_le] at hblocked
  cases hdonor : donorFor s.active r with
  | none => exact .inr ⟨none, hblocked.1, by simp, rfl, rfl⟩
  | some d =>
      dsimp only
      by_cases hready : d.nPast < d.promptLen
      · rw [if_pos hready, if_pos hready]
        exact .inl ⟨rfl, rfl⟩
      · rw [if_neg hready, if_neg hready]
        refine .inr ⟨some d, hblocked.1, fun d' hd' => ?_, rfl, rfl⟩
        obtain rfl := Option.some.inj hd'
        exact ⟨rfl, hready⟩

theorem run_admitCalls (pending : List (Request K)) (s : SchedulerState K) :
    Runs.run effect s.kv (scheduler.admitCalls pending s) =
      (scheduler.admitFrom pending s).kv := by
  induction pending generalizing s with
  | nil => rfl
  | cons r rest ih =>
      rcases admit_cases scheduler r rest s with
        ⟨hloop, hcalls⟩ | ⟨donor, -, -, hloop, hcalls⟩
      · rw [hloop, hcalls, Runs.run_nil]
      · rw [hloop, hcalls, Runs.run_append, run_activateCalls, ih]

theorem run_serveCalls (answer : Decoding K) (s : SchedulerState K) :
    Runs.run effect s.kv (scheduler.serveCalls answer s) =
      (scheduler.serveWith answer s).kv := by
  rw [serveWith_eq, serveCalls, Runs.run_cons]
  exact run_finishCalls { s with kv := kvWith (s.active.map sliceOf) s.kv answer } _

/-- Replaying the calls of a step gives the cache it leaves. -/
theorem run_stepCalls (answer : Decoding K) (s : SchedulerState K) :
    Runs.run effect s.kv (scheduler.stepCalls answer s) = (scheduler.stepWith answer s).1.kv := by
  have hloop : Runs.run effect s.kv (scheduler.admitCalls s.pending s) =
      (scheduler.admitPending s).kv := run_admitCalls scheduler s.pending s
  rw [stepCalls, stepWith, Runs.run_append, hloop]
  dsimp only
  split
  · rfl
  · exact run_serveCalls scheduler answer _

/-! ## The contract -/

/-- What a call needs of the cache.  `decode_seqs` continues every sequence where it ends;
`copy_seq` fills an empty sequence with what the prompt of its request begins with. -/
def Meets (requests : List (Request K)) (kv : KvCache) : SeqCall K → Prop
  | .decodeSeqs slices _ =>
      ∀ slice ∈ slices, slice.tokens ≠ [] ∧ slice.posStart = (kv slice.seqId).length
  | .clearSeq _ => True
  | .copySeq src dst n =>
      kv dst = [] ∧ n ≤ (kv src).length ∧
        ∃ r ∈ requests, r.seqId = dst ∧ (kv src).take n = r.prompt.take n

/-- The used slots are those of the active requests, one each. -/
structure SlotsHeld (s : SchedulerState K) : Prop where
  atMost : (s.active.length : ℤ) ≤ scheduler.nParallel
  distinct : (s.active.map Request.seqId).Nodup
  inRange : ∀ r ∈ s.active, 0 ≤ r.seqId ∧ r.seqId < scheduler.nParallel
  slots : (s.slotUsed.length : ℤ) = scheduler.nParallel
  used_iff : ∀ slot : ℕ, s.slotUsed[slot]? = some true ↔ ∃ r ∈ s.active, r.seqId = slot

/-- The sequence of an active request holds its history but for the last token; those of the
other slots are empty. -/
structure SequencesHold (s : SchedulerState K) : Prop where
  active : ∀ r ∈ s.active, s.kv r.seqId = r.history.dropLast
  unused : ∀ slot : ℕ, s.slotUsed[slot]? = some false → s.kv slot = []

variable {scheduler}

theorem Coherent.slotsHeld {s : SchedulerState K} (hcoherent : Coherent scheduler s)
    (hparallel : 1 ≤ scheduler.nParallel) : SlotsHeld scheduler s := by
  have hslots := hcoherent.slots
  have hrange : ∀ r ∈ s.active, 0 ≤ r.seqId ∧ r.seqId < scheduler.nParallel := by
    intro r hr
    obtain ⟨slot, hslot, hused⟩ := (hcoherent.seated r hr).slot
    have hlt := (List.getElem?_eq_some_iff.mp hused).1
    omega
  refine ⟨?_, hcoherent.distinct, hrange, by omega, fun slot => ⟨hcoherent.owned slot, ?_⟩⟩
  · have hsub : s.active.map Request.seqId ⊆
        (List.range s.slotUsed.length).map (Nat.cast : ℕ → ℤ) := by
      intro seq hseq
      obtain ⟨r, hr, rfl⟩ := List.mem_map.mp hseq
      have := hrange r hr
      exact List.mem_map.mpr ⟨r.seqId.toNat, List.mem_range.mpr (by omega), by omega⟩
    have hle := (hcoherent.distinct.subperm hsub).length_le
    rw [List.length_map, List.length_map, List.length_range] at hle
    omega
  · rintro ⟨r, hr, heq⟩
    obtain ⟨slot', hslot, hused⟩ := (hcoherent.seated r hr).slot
    obtain rfl : slot' = slot := by omega
    exact hused

theorem Rested.sequencesHold {s : SchedulerState K} (hrested : Rested scheduler s) :
    SequencesHold s :=
  ⟨fun r hr => ((hrested.coherent.seated r hr).warm (hrested.warm r hr)).2, hrested.coherent.clear⟩

/-- The slices of a coherent state continue their sequences. -/
theorem Coherent.meets_decodeSeqs {s : SchedulerState K} (hcoherent : Coherent scheduler s)
    (requests : List (Request K)) (answer : Decoding K) :
    Meets requests s.kv (.decodeSeqs (s.active.map sliceOf) answer) := by
  intro slice hslice
  obtain ⟨r, hr, rfl⟩ := List.mem_map.mp hslice
  have hseated := hcoherent.seated r hr
  obtain ⟨-, hstart, -⟩ := hseated.slice
  rw [sliceOf_seqId]
  refine ⟨?_, hstart⟩
  cases hcold : r.needsPrefill with
  | true =>
      have hne : r.history ≠ [] := by
        rw [← List.length_pos_iff]
        exact hseated.prompt.1.trans_le hseated.prompt.2
      simpa [sliceOf, hcold] using hne
  | false => simp [sliceOf, hcold]

/-- What is copied from a donor is what the prompt of the new request begins with. -/
theorem Coherent.throughout_activateCalls {s : SchedulerState K} {r : Request K}
    {rest : List (Request K)} (hcoherent : Coherent scheduler { s with pending := r :: rest })
    (hroom : (s.active.length : ℤ) < scheduler.nParallel) {donor : Option (Request K)}
    (hdonor : ∀ d ∈ donor, donorFor s.active r = some d ∧ ¬ d.nPast < d.promptLen)
    {requests : List (Request K)}
    (hrequests : ∀ a ∈ (Scheduler.activate s donor r).active, a ∈ requests) :
    Runs.Throughout effect (Meets requests) s.kv (activateCalls s donor r) := by
  cases donor with
  | none => exact trivial
  | some d =>
      obtain ⟨hfound, hready⟩ := hdonor d rfl
      obtain ⟨slot, hfind, hfree⟩ := exists_free_slot hcoherent hroom
      have hprompt := (hcoherent.waiting r (List.mem_cons_self ..)).prompt
      have hmem : d ∈ s.active := by
        unfold donorFor at hfound
        split at hfound
        · exact List.mem_of_find?_eq_some hfound
        · cases hfound
      have hcopied : (s.kv d.seqId).take (r.history.length - 1) = r.history.dropLast :=
        donor_prefix hfound (hcoherent.seated d hmem) hready
      have hlast : { r with seqId := slot, nPast := r.promptLen - 1, needsPrefill := false } ∈
          (Scheduler.activate s (some d) r).active := by
        simp [Scheduler.activate, takeSlot_eq hfind]
      rw [activateCalls, takeSlot_eq hfind]
      refine ⟨⟨hcoherent.clear slot hfree, ?_, _, hrequests _ hlast, rfl, ?_⟩, trivial⟩
      · have hlength := congrArg List.length hcopied
        rw [List.length_take, List.length_dropLast] at hlength
        omega
      · rw [Request.prompt, hprompt.2, hcopied, List.take_length, List.dropLast_eq_take]

/-- The loop of `admit` copies as it may. -/
theorem throughout_admitCalls {pending : List (Request K)} {s : SchedulerState K}
    (hcoherent : Coherent scheduler { s with pending }) :
    Runs.Throughout effect (Meets (scheduler.admitFrom pending s).active) s.kv
      (scheduler.admitCalls pending s) := by
  induction pending generalizing s with
  | nil => exact trivial
  | cons r rest ih =>
      rcases admit_cases scheduler r rest s with
        ⟨-, hcalls⟩ | ⟨donor, hroom, hdonor, hloop, hcalls⟩
      · rw [hcalls]
        exact trivial
      · have hafter := hcoherent.activate hroom hdonor
        rw [hloop, hcalls, Runs.throughout_append, run_activateCalls]
        refine ⟨hcoherent.throughout_activateCalls hroom hdonor fun a ha => ?_, ih hafter⟩
        exact (admitFrom_spec rest _ hafter).2.2.subset ha

/-- The calls of a batch are made as they may. -/
theorem Coherent.throughout_serveCalls {s : SchedulerState K} (hcoherent : Coherent scheduler s)
    (answer : Decoding K) (requests : List (Request K)) :
    Runs.Throughout effect (Meets requests) s.kv (scheduler.serveCalls answer s) := by
  refine ⟨hcoherent.meets_decodeSeqs requests answer, Runs.throughout_of_forall ?_⟩
  intro call hcall kv
  obtain ⟨p, -, hp⟩ := List.mem_flatMap.mp hcall
  unfold finishCalls at hp
  split at hp
  · obtain rfl := List.mem_singleton.mp hp
    exact trivial
  · cases hp

/-- In every reachable state, and at every call of the next `step`. -/
theorem sequence_contract_met {s₀ : SchedulerState K} (hconstruct : scheduler.construct = .ok s₀)
    (calls : List (Move K)) :
    let s := Runs.run scheduler.move s₀ calls
    SlotsHeld scheduler s ∧ SequencesHold s ∧ SlotsHeld scheduler (scheduler.admitPending s) ∧
      ∀ answer, Runs.Throughout effect (Meets (scheduler.admitPending s).active) s.kv
        (scheduler.stepCalls answer s) := by
  intro s
  obtain ⟨hparallel, rfl⟩ := construct_eq_ok.mp hconstruct
  have hrested : Rested scheduler s := rested_initial.run calls
  have hadmitted := (admit_spec hrested.coherent).1
  refine ⟨hrested.coherent.slotsHeld hparallel, hrested.sequencesHold,
    hadmitted.slotsHeld hparallel, fun answer => ?_⟩
  have hkv : Runs.run effect s.kv (scheduler.admitCalls s.pending s) =
      (scheduler.admitPending s).kv := run_admitCalls scheduler s.pending s
  rw [stepCalls, Runs.throughout_append, hkv]
  refine ⟨throughout_admitCalls hrested.coherent, ?_⟩
  split
  · exact trivial
  · exact hadmitted.throughout_serveCalls answer _

/-- A request while one with the same prompt is under way: it gets a copy of that prompt. -/
theorem sequence_contract_shared :
    let scheduler : Scheduler ℚ := ⟨.rational, twoTokenBackend 8 (by decide) fun _ _ => none, 2⟩
    let request : Move ℚ := .submit [0, 0] (greedyConfig 3) (some fun _ => .keepGoing)
    let s := Runs.run scheduler.move scheduler.initial
      [request, .step (.returned fun _ => [1, 0]), request]
    (scheduler.admitCalls s.pending s).length = 1 ∧
      SlotsHeld scheduler s ∧ SequencesHold s ∧ SlotsHeld scheduler (scheduler.admitPending s) ∧
        ∀ answer, Runs.Throughout effect (Meets (scheduler.admitPending s).active) s.kv
          (scheduler.stepCalls answer s) :=
  ⟨rfl, sequence_contract_met rfl _⟩

end Scheduler

end Reame.Core
