import Reame.Core.Scheduler
import Reame.Foundation.Service

/-!
# The scheduler serves every request as if it were alone

What a request is apart from slots, sequences and batches is its `Dialogue` with the
model, and `advance` is one turn of it: sample from the logits of the history, deliver,
append.  This file proves that the scheduler is a first-come-first-served `Service` of
such dialogues.  Admission is invisible there, and a successful batch is one `tick` of
the active requests.

The invariant is `Coherent`.  Its core is the relation between a seated request and its
sequence: before the prefill the sequence is empty, and afterwards it holds the history
without its newest token, whether it was decoded or cloned from a donor.  So every slice
completes its sequence to the history, and the logits of a batch are those a lone
request would see.
-/

namespace Reame.Core

variable {K : Type*} [Field K] [LinearOrder K]

/-- A request apart from its place in the scheduler. -/
structure Dialogue (K : Type*) where
  history : List TokenId
  gen : GenerationConfig K
  onToken : TokenCallback
  sampler : Sampler K
  emitted : ℕ
  delivered : List TokenId

/-- The dialogue of a request. -/
def Request.dialogue (r : Request K) : Dialogue K :=
  ⟨r.history, r.gen, r.onToken, r.sampler, r.emitted, r.delivered⟩

namespace Scheduler

variable (scheduler : Scheduler K)

/-- The dialogue a submission starts. -/
def start (prompt : List TokenId) (gen : GenerationConfig K) (onToken : TokenCallback) :
    Dialogue K :=
  ⟨prompt, gen, onToken, Sampler.new scheduler.lib gen, 0, []⟩

/-- One turn of a dialogue with the model. -/
def advance (d : Dialogue K) : Dialogue K ⊕ Outcome :=
  match d.sampler.sample scheduler.lib (scheduler.backend.logits d.history) d.history with
  | (.error fault, _) => .inr ⟨some fault, d.delivered⟩
  | (.ok next, sampler) =>
      if scheduler.backend.isEog next then .inr ⟨none, d.delivered⟩
      else
        match d.onToken (d.delivered ++ [next]) with
        | .throws => .inr ⟨some .callback, d.delivered ++ [next]⟩
        | .stop => .inr ⟨none, d.delivered ++ [next]⟩
        | .keepGoing =>
            if d.gen.maxTokens ≤ (d.emitted + 1 : ℕ) ∨ scheduler.nCtx ≤ d.history.length + 1 then
              .inr ⟨none, d.delivered ++ [next]⟩
            else
              .inl { d with
                history := d.history ++ [next]
                sampler
                emitted := d.emitted + 1
                delivered := d.delivered ++ [next] }

/-- The scheduler's requests as jobs: the active ones at the head of the queue. -/
def service (s : SchedulerState K) : Service (Dialogue K) Outcome :=
  ⟨(s.active ++ s.pending).map fun r => (r.id, r.dialogue), s.done, s.nextId⟩

/-- The scheduler's requests as they are, with their numbers. -/
def roster (s : SchedulerState K) : Service (Request K) Outcome :=
  ⟨(s.active ++ s.pending).map fun r => (r.id, r), s.done, s.nextId⟩

omit [Field K] [LinearOrder K] in
theorem service_eq_map (s : SchedulerState K) : service s = (roster s).map Request.dialogue := by
  simp [service, roster, Service.map, Function.comp_def]

variable {scheduler}

/-! ## Dialogues -/

/-- A turn that goes on adds one token, and stays below the context length and the
budget. -/
theorem advance_inl {d d' : Dialogue K} (hadvance : scheduler.advance d = .inl d') :
    ∃ next, d'.history = d.history ++ [next] ∧ d'.delivered = d.delivered ++ [next] ∧
      d.history.length + 1 < scheduler.nCtx ∧ d'.gen = d.gen ∧ d'.emitted = d.emitted + 1 ∧
      (d'.emitted : ℤ) < d.gen.maxTokens := by
  unfold advance at hadvance
  split at hadvance
  · cases hadvance
  · rename_i next sampler _
    split at hadvance
    · cases hadvance
    · split at hadvance
      · cases hadvance
      · cases hadvance
      · split at hadvance
        · cases hadvance
        · rename_i hroom
          cases hadvance
          exact ⟨next, rfl, rfl, by omega, rfl, rfl, by dsimp only; omega⟩

/-- The last turn delivers at most one more token. -/
theorem advance_inr {d : Dialogue K} {outcome : Outcome}
    (hadvance : scheduler.advance d = .inr outcome) : d.delivered <+: outcome.delivered := by
  unfold advance at hadvance
  split at hadvance
  · cases hadvance
    exact List.prefix_rfl
  · split at hadvance
    · cases hadvance
      exact List.prefix_rfl
    · split at hadvance
      · cases hadvance
        exact List.prefix_append _ _
      · cases hadvance
        exact List.prefix_append _ _
      · split at hadvance
        · cases hadvance
          exact List.prefix_append _ _
        · cases hadvance

variable (scheduler) in
/-- Every dialogue ends. -/
theorem exists_outcome (d : Dialogue K) :
    ∃ outcome, Loop.Exits scheduler.advance d outcome := by
  refine Loop.exists_exits_of_measure (fun _ => True)
    (fun d => scheduler.nCtx - d.history.length) (fun before after _ hadvance => ?_) trivial
  obtain ⟨next, hhistory, -, hroom, -⟩ := advance_inl hadvance
  refine ⟨trivial, ?_⟩
  rw [hhistory, List.length_append, List.length_singleton]
  omega

/-- What has been delivered along the way begins what is delivered in the end. -/
theorem prefix_delivered {d : Dialogue K} {outcome : Outcome}
    (hexits : Loop.Exits scheduler.advance d outcome) : d.delivered <+: outcome.delivered := by
  induction hexits with
  | leave hadvance => exact advance_inr hadvance
  | next hadvance _ ih =>
      obtain ⟨next, -, hdelivered, -⟩ := advance_inl hadvance
      rw [hdelivered] at ih
      exact (List.prefix_append _ _).trans ih

variable (scheduler) in
/-- A request's part of a batch is one turn of its dialogue. -/
theorem emitToken_cases (r : Request K) :
    (∃ r' next, scheduler.emitToken r (scheduler.backend.logits r.history) = .inl r' ∧
        scheduler.advance r.dialogue = .inl r'.dialogue ∧ r'.history = r.history ++ [next] ∧
        r'.id = r.id ∧ r'.seqId = r.seqId ∧ r'.promptLen = r.promptLen ∧ r'.nPast = r.nPast ∧
        r'.needsPrefill = r.needsPrefill) ∨
      ∃ r' error, scheduler.emitToken r (scheduler.backend.logits r.history) = .inr (r', error) ∧
        scheduler.advance r.dialogue = .inr ⟨error, r'.delivered⟩ ∧ r'.id = r.id ∧
        r'.seqId = r.seqId := by
  rcases hsample : r.sampler.sample scheduler.lib (scheduler.backend.logits r.history) r.history
    with ⟨answer, sampler⟩
  simp only [emitToken, advance, Request.dialogue, hsample]
  cases answer with
  | error fault => exact .inr ⟨_, _, rfl, rfl, rfl, rfl⟩
  | ok next =>
      dsimp only
      by_cases heog : scheduler.backend.isEog next = true
      · rw [if_pos heog, if_pos heog]
        exact .inr ⟨_, _, rfl, rfl, rfl, rfl⟩
      · rw [if_neg heog, if_neg heog]
        cases r.onToken (r.delivered ++ [next]) with
        | throws => exact .inr ⟨_, _, rfl, rfl, rfl, rfl⟩
        | stop => exact .inr ⟨_, _, rfl, rfl, rfl, rfl⟩
        | keepGoing =>
            simp only [List.length_append, List.length_singleton]
            by_cases hfull : r.gen.maxTokens ≤ (r.emitted + 1 : ℕ) ∨
                scheduler.nCtx ≤ r.history.length + 1
            · exact .inr ⟨_, _, if_pos hfull, if_pos hfull, rfl, rfl⟩
            · exact .inl ⟨_, next, if_neg hfull, if_neg hfull, rfl, rfl, rfl, rfl, rfl, rfl⟩

/-! ## Finishing several requests -/

/-- Finish the given requests in turn. -/
def retire (s : SchedulerState K) (leaving : List (Request K × Option Fault)) :
    SchedulerState K :=
  leaving.foldl (fun s p => finish s p.1 p.2) s

omit [Field K] [LinearOrder K] in
@[simp] theorem retire_pending (s : SchedulerState K) (leaving : List (Request K × Option Fault)) :
    (retire s leaving).pending = s.pending := by
  induction leaving generalizing s with
  | nil => rfl
  | cons p rest ih =>
      rw [retire, List.foldl_cons, ← retire, ih, finish]
      dsimp only
      split <;> rfl

omit [Field K] [LinearOrder K] in
@[simp] theorem retire_nextId (s : SchedulerState K) (leaving : List (Request K × Option Fault)) :
    (retire s leaving).nextId = s.nextId := by
  induction leaving generalizing s with
  | nil => rfl
  | cons p rest ih =>
      rw [retire, List.foldl_cons, ← retire, ih, finish]
      dsimp only
      split <;> rfl

omit [Field K] [LinearOrder K] in
theorem retire_done (s : SchedulerState K) (leaving : List (Request K × Option Fault)) :
    (retire s leaving).done =
      (leaving.map fun p => (p.1.id, (⟨p.2, p.1.delivered⟩ : Outcome))).reverse ++ s.done := by
  induction leaving generalizing s with
  | nil => rfl
  | cons p rest ih =>
      have hfinish : (finish s p.1 p.2).done = (p.1.id, ⟨p.2, p.1.delivered⟩) :: s.done := by
        rw [finish]
        dsimp only
        split <;> rfl
      rw [retire, List.foldl_cons, ← retire, ih, hfinish]
      simp

omit [Field K] [LinearOrder K] in
theorem retire_kv (s : SchedulerState K) (leaving : List (Request K × Option Fault)) (k : ℕ) :
    (retire s leaving).kv k = if ∃ p ∈ leaving, p.1.seqId = k then [] else s.kv k := by
  induction leaving generalizing s with
  | nil => simp [retire]
  | cons p rest ih =>
      rw [retire, List.foldl_cons, ← retire, ih]
      by_cases hrest : ∃ q ∈ rest, q.1.seqId = k
      · rw [if_pos hrest, if_pos (by simpa using Or.inr (by simpa using hrest))]
      · rw [if_neg hrest]
        by_cases hp : p.1.seqId = k
        · rw [if_pos ⟨p, List.mem_cons_self .., hp⟩]
          simp [finish, hp, clearSeq]
        · rw [if_neg (by simpa [hp] using hrest), finish]
          dsimp only
          split
          · simp [clearSeq, Function.update_of_ne (Ne.symm hp)]
          · rfl

omit [Field K] [LinearOrder K] in
theorem retire_slotUsed (s : SchedulerState K) (leaving : List (Request K × Option Fault)) (k : ℕ) :
    (retire s leaving).slotUsed[k]? =
      if ∃ p ∈ leaving, p.1.seqId = k then s.slotUsed[k]?.map (fun _ => false)
      else s.slotUsed[k]? := by
  induction leaving generalizing s with
  | nil => simp [retire]
  | cons p rest ih =>
      have hfinish : (finish s p.1 p.2).slotUsed[k]? =
          if p.1.seqId = k then s.slotUsed[k]?.map (fun _ => false) else s.slotUsed[k]? := by
        rw [finish]
        dsimp only
        by_cases hp : p.1.seqId = k
        · rw [if_pos hp, hp, if_pos (Int.natCast_nonneg k), Int.toNat_natCast]
          exact List.getElem?_set_self'
        · rw [if_neg hp]
          split
          · rename_i hpos
            have hne : p.1.seqId.toNat ≠ k := by omega
            simp [List.getElem?_set_ne hne]
          · rfl
      rw [retire, List.foldl_cons, ← retire, ih, hfinish]
      by_cases hp : p.1.seqId = k
      · have hmem : ∃ q ∈ p :: rest, q.1.seqId = k := ⟨p, List.mem_cons_self .., hp⟩
        rw [if_pos hp, if_pos hmem]
        simp
      · rw [if_neg hp]
        exact if_congr (by simp [hp]) rfl rfl

omit [Field K] [LinearOrder K] in
theorem retire_length (s : SchedulerState K) (leaving : List (Request K × Option Fault)) :
    (retire s leaving).slotUsed.length = s.slotUsed.length := by
  induction leaving generalizing s with
  | nil => rfl
  | cons p rest ih =>
      rw [retire, List.foldl_cons, ← retire, ih, finish]
      dsimp only
      split <;> simp

/-! ## The batch -/

/-- A request as the sampling loop sees it, after its slice has been decoded. -/
def decoded (r : Request K) : Request K :=
  { r with nPast := r.nPast + (sliceOf r).tokens.length, needsPrefill := false }

/-- The request after a batch, if it stays. -/
def staying (scheduler : Scheduler K) (r : Request K) : Option (Request K) :=
  (scheduler.emitToken (decoded r) (scheduler.backend.logits r.history)).getLeft?

/-- The request after a batch, with its error, if it leaves. -/
def leaving (scheduler : Scheduler K) (r : Request K) : Option (Request K × Option Fault) :=
  (scheduler.emitToken (decoded r) (scheduler.backend.logits r.history)).getRight?

/-- The sampling loop, whatever the logits are. -/
theorem settle_map (logitsOf : Request K → List K) (requests : List (Request K))
    (s : SchedulerState K) :
    scheduler.settle requests (requests.map sliceOf) (requests.map logitsOf) s =
      (requests.filterMap fun r => (scheduler.emitToken (decoded r) (logitsOf r)).getLeft?,
        retire s (requests.filterMap fun r =>
          (scheduler.emitToken (decoded r) (logitsOf r)).getRight?)) := by
  induction requests generalizing s with
  | nil => rfl
  | cons r rest ih =>
      have hdecoded : ({ r with
          nPast := r.nPast + (sliceOf r).tokens.length, needsPrefill := false } : Request K) =
          decoded r := rfl
      simp only [List.map_cons, settle, hdecoded, List.filterMap_cons]
      cases scheduler.emitToken (decoded r) (logitsOf r) with
      | inl r' => simp [ih]
      | inr p => simp [ih, retire]

/-- The sampling loop, when every request gets the logits of its own history. -/
theorem settle_eq (requests : List (Request K)) (s : SchedulerState K) :
    scheduler.settle requests (requests.map sliceOf)
        (requests.map fun r => scheduler.backend.logits r.history) s =
      (requests.filterMap scheduler.staying, retire s (requests.filterMap scheduler.leaving)) :=
  settle_map _ requests s

/-- What becomes of a request in a batch: it goes on with one more token, or it leaves. -/
inductive Turn (scheduler : Scheduler K) (r : Request K) :
    Request K ⊕ (Request K × Option Fault) → Prop
  | stays {r' : Request K} (next : TokenId) (hhistory : r'.history = r.history ++ [next])
      (hroom : r.history.length + 1 < scheduler.nCtx) (hid : r'.id = r.id)
      (hseq : r'.seqId = r.seqId) (hprompt : r'.promptLen = r.promptLen)
      (hpast : r'.nPast = r.nPast + (sliceOf r).tokens.length) (hwarm : r'.needsPrefill = false) :
      Turn scheduler r (.inl r')
  | leaves {r' : Request K} (error : Option Fault) (hid : r'.id = r.id)
      (hseq : r'.seqId = r.seqId) : Turn scheduler r (.inr (r', error))

variable (scheduler) in
/-- Whatever the logits are. -/
theorem turn_emitToken (r : Request K) (logits : List K) :
    Turn scheduler r (scheduler.emitToken (decoded r) logits) := by
  unfold emitToken
  split
  · exact .leaves _ rfl rfl
  · dsimp only
    split
    · exact .leaves _ rfl rfl
    · split
      · exact .leaves _ rfl rfl
      · exact .leaves _ rfl rfl
      · split
        · exact .leaves _ rfl rfl
        · rename_i hfull
          refine .stays _ rfl ?_ rfl rfl rfl rfl rfl
          simp only [decoded, List.length_append, List.length_singleton] at hfull
          omega

omit [Field K] [LinearOrder K] in
/-- A batch over distinct sequences: each slice sees its own sequence, and the others
are left alone. -/
theorem decodeSlices_spec (backend : SeqBackend K) {slices : List SeqSlice} (kv : KvCache)
    (hdistinct : (slices.map SeqSlice.seqId).Nodup) :
    (backend.decodeSlices slices kv).1 =
        slices.map (fun slice => backend.logits (kv slice.seqId ++ slice.tokens)) ∧
      (∀ slice ∈ slices, (backend.decodeSlices slices kv).2 slice.seqId =
        kv slice.seqId ++ slice.tokens) ∧
      ∀ k, (∀ slice ∈ slices, slice.seqId ≠ k) → (backend.decodeSlices slices kv).2 k = kv k := by
  induction slices generalizing kv with
  | nil => simp [SeqBackend.decodeSlices]
  | cons slice rest ih =>
      obtain ⟨hfresh, hdistinct⟩ := List.nodup_cons.mp hdistinct
      have hother : ∀ other ∈ rest, other.seqId ≠ slice.seqId := fun other hmem heq =>
        hfresh (heq ▸ List.mem_map_of_mem hmem)
      obtain ⟨hlogits, hkv, hframe⟩ := ih (Function.update kv slice.seqId
        (kv slice.seqId ++ slice.tokens)) hdistinct
      simp only [SeqBackend.decodeSlices]
      refine ⟨?_, ?_, ?_⟩
      · rw [hlogits, List.map_cons]
        congr 1
        refine List.map_congr_left fun other hmem => ?_
        rw [Function.update_of_ne (hother other hmem)]
      · intro other hmem
        rcases List.mem_cons.mp hmem with rfl | hmem
        · rw [hframe _ hother, Function.update_self]
        · rw [hkv other hmem, Function.update_of_ne (hother other hmem)]
      · intro k hk
        rw [hframe k fun other hmem => hk other (List.mem_cons_of_mem _ hmem),
          Function.update_of_ne (Ne.symm (hk slice (List.mem_cons_self ..)))]

/-! ## The invariant -/

/-- A request in a slot: its sequence is empty before the prefill, and afterwards holds
the history without its newest token. -/
structure Seated (scheduler : Scheduler K) (slotUsed : List Bool) (kv : KvCache)
    (r : Request K) : Prop where
  slot : ∃ k : ℕ, r.seqId = k ∧ slotUsed[k]? = some true
  prompt : 0 < r.promptLen ∧ r.promptLen ≤ r.history.length
  fits : r.history.length ≤ scheduler.nCtx
  cold : r.needsPrefill = true → r.nPast = 0 ∧ kv r.seqId = []
  warm : r.needsPrefill = false → r.nPast + 1 = r.history.length ∧ kv r.seqId = r.history.dropLast

/-- A request in the queue. -/
structure Waiting (scheduler : Scheduler K) (r : Request K) : Prop where
  prompt : 0 < r.promptLen ∧ r.promptLen = r.history.length
  fits : r.history.length ≤ scheduler.nCtx
  cold : r.nPast = 0 ∧ r.needsPrefill = true

/-- The invariant of the scheduler. -/
structure Coherent (scheduler : Scheduler K) (s : SchedulerState K) : Prop where
  seated : ∀ r ∈ s.active, Seated scheduler s.slotUsed s.kv r
  distinct : (s.active.map Request.seqId).Nodup
  owned : ∀ k : ℕ, s.slotUsed[k]? = some true → ∃ r ∈ s.active, r.seqId = k
  clear : ∀ k : ℕ, s.slotUsed[k]? = some false → s.kv k = []
  waiting : ∀ r ∈ s.pending, Waiting scheduler r
  slots : s.slotUsed.length = (max scheduler.nParallel 1).toNat
  numbered : (service s).Numbered

variable (scheduler) in
theorem coherent_initial : Coherent scheduler scheduler.initial where
  seated := by simp [initial]
  distinct := by simp [initial]
  owned k hk := by
    rw [initial, List.getElem?_replicate] at hk
    split at hk <;> simp at hk
  clear _ _ := rfl
  waiting := by simp [initial]
  slots := by simp [initial]
  numbered := ⟨by simp [service, initial], by simp [service, initial], by simp [service, initial],
    by simp [service, initial], by simp [service, initial]⟩

/-- Every slice completes its sequence to the history. -/
theorem Seated.slice {slotUsed : List Bool} {kv : KvCache} {r : Request K}
    (hseated : Seated scheduler slotUsed kv r) :
    kv r.seqId ++ (sliceOf r).tokens = r.history ∧
      (sliceOf r).posStart = (kv r.seqId).length ∧
      r.nPast + (sliceOf r).tokens.length = r.history.length := by
  have hne : r.history ≠ [] := by
    rw [← List.length_pos_iff]
    exact hseated.prompt.1.trans_le hseated.prompt.2
  cases hcold : r.needsPrefill with
  | true =>
      obtain ⟨hpast, hkv⟩ := hseated.cold hcold
      simp [sliceOf, hcold, hkv, hpast]
  | false =>
      obtain ⟨hpast, hkv⟩ := hseated.warm hcold
      have hlast : r.history.getLastD 0 = r.history.getLast hne := by
        rw [List.getLastD_eq_getLast?, List.getLast?_eq_some_getLast hne, Option.getD_some]
      simp only [sliceOf, hcold, Bool.false_eq_true, if_false, hkv, hlast,
        List.dropLast_append_getLast, List.length_dropLast, List.length_singleton, true_and]
      omega

/-! ## Submission and admission -/

/-- The request a submission enqueues. -/
def newRequest (scheduler : Scheduler K) (id : ℕ) (prompt : List TokenId)
    (gen : GenerationConfig K) (onToken : TokenCallback) : Request K :=
  { id
    history := prompt
    promptLen := prompt.length
    gen
    onToken
    sampler := Sampler.new scheduler.lib gen }

variable (scheduler) in
/-- A submission that is accepted is a new job; one that is not changes nothing. -/
theorem submit_cases (s : SchedulerState K) (prompt : List TokenId) (gen : GenerationConfig K)
    (onToken : Option TokenCallback) :
    (∃ fault, scheduler.submit s prompt gen onToken = .error fault) ∨
      ∃ callback s', onToken = some callback ∧
        scheduler.submit s prompt gen onToken = .ok (s.nextId, s') ∧
        service s' = (service s).submit (scheduler.start prompt gen callback) ∧
        (Coherent scheduler s → Coherent scheduler s') ∧
        s' = { s with
          pending := s.pending ++ [scheduler.newRequest s.nextId prompt gen callback]
          nextId := s.nextId + 1 } := by
  unfold submit
  split
  · exact .inl ⟨_, rfl⟩
  · rename_i hne
    split
    · exact .inl ⟨_, rfl⟩
    · rename_i hfits
      cases onToken with
      | none => exact .inl ⟨_, rfl⟩
      | some callback =>
          refine .inr ⟨callback, _, rfl, rfl, ?_, fun hcoherent => ?_, rfl⟩
          · simp [service, Service.submit, Request.dialogue, start]
          · refine ⟨hcoherent.seated, hcoherent.distinct, hcoherent.owned, hcoherent.clear, ?_,
              hcoherent.slots, ?_⟩
            · intro r hr
              rcases List.mem_append.mp hr with hr | hr
              · exact hcoherent.waiting r hr
              · obtain rfl := List.mem_singleton.mp hr
                exact ⟨⟨List.length_pos_iff.mpr hne, rfl⟩, not_lt.mp hfits, rfl, rfl⟩
            · have hnumbered := hcoherent.numbered.submit (scheduler.start prompt gen callback)
              simpa [service, Service.submit, Request.dialogue, start] using hnumbered

omit [Field K] [LinearOrder K] in
theorem takeSlot_eq {slotUsed : List Bool} {k : ℕ} (hfind : slotUsed.findIdx? (! ·) = some k)
    (r : Request K) : takeSlot slotUsed r = (slotUsed.set k true, { r with seqId := k }) := by
  rw [takeSlot, hfind]

/-- While fewer requests are active than allowed there is a free slot. -/
theorem exists_free_slot {s : SchedulerState K} (hcoherent : Coherent scheduler s)
    (hroom : (s.active.length : ℤ) < scheduler.nParallel) :
    ∃ k, s.slotUsed.findIdx? (! ·) = some k ∧ s.slotUsed[k]? = some false := by
  cases hfind : s.slotUsed.findIdx? (! ·) with
  | some k =>
      obtain ⟨hlt, hfree, -⟩ := List.findIdx?_eq_some_iff_getElem.mp hfind
      exact ⟨k, rfl, by simpa [List.getElem?_eq_getElem hlt] using hfree⟩
  | none =>
      -- All slots used: their owners are as many as there are slots.
      have hall : ∀ k : ℕ, k < s.slotUsed.length → ∃ r ∈ s.active, r.seqId = k := by
        intro k hk
        refine hcoherent.owned k ?_
        have := List.findIdx?_eq_none_iff.mp hfind _ (List.getElem_mem hk)
        rw [List.getElem?_eq_getElem hk]
        simpa using this
      have hsub : (List.range s.slotUsed.length).map (Nat.cast : ℕ → ℤ) ⊆
          s.active.map Request.seqId := by
        intro seq hseq
        obtain ⟨k, hk, rfl⟩ := List.mem_map.mp hseq
        obtain ⟨r, hr, hid⟩ := hall k (List.mem_range.mp hk)
        exact List.mem_map.mpr ⟨r, hr, hid⟩
      have hle := ((List.nodup_range.map Nat.cast_injective).subperm hsub).length_le
      rw [List.length_map, List.length_map, List.length_range, hcoherent.slots] at hle
      omega

/-- A request takes a free slot: nobody else's sequence changes. -/
theorem Coherent.seat {s : SchedulerState K} {r r' : Request K} {rest : List (Request K)} {k : ℕ}
    {kv : KvCache} (hcoherent : Coherent scheduler { s with pending := r :: rest })
    (hfree : s.slotUsed[k]? = some false) (hkv : ∀ j, j ≠ (k : ℤ) → kv j = s.kv j)
    (hid : r'.id = r.id) (hdialogue : r'.dialogue = r.dialogue) (hseq : r'.seqId = k)
    (hprompt : r'.promptLen = r.promptLen)
    (hcold : r'.needsPrefill = true → r'.nPast = 0 ∧ kv k = [])
    (hwarm : r'.needsPrefill = false →
      r'.nPast + 1 = r'.history.length ∧ kv k = r'.history.dropLast) :
    Coherent scheduler { s with
      pending := rest
      active := s.active ++ [r']
      slotUsed := s.slotUsed.set k true
      kv } := by
  have hlt : k < s.slotUsed.length := (List.getElem?_eq_some_iff.mp hfree).1
  have hwaiting := hcoherent.waiting r (List.mem_cons_self ..)
  have hhistory : r'.history = r.history := congrArg Dialogue.history hdialogue
  have hothers : ∀ a ∈ s.active, a.seqId ≠ k := by
    intro a ha heq
    obtain ⟨j, hj, hused⟩ := (hcoherent.seated a ha).slot
    obtain rfl : j = k := by omega
    rw [hfree] at hused
    cases hused
  refine ⟨?_, ?_, ?_, ?_, fun a ha => hcoherent.waiting a (List.mem_cons_of_mem _ ha),
    by simpa using hcoherent.slots, ?_⟩
  · intro a ha
    rcases List.mem_append.mp ha with ha | ha
    · obtain ⟨⟨j, hj, hused⟩, hprompt, hfits, hcold, hwarm⟩ := hcoherent.seated a ha
      have hne := hothers a ha
      refine ⟨⟨j, hj, ?_⟩, hprompt, hfits, ?_, ?_⟩
      · rwa [List.getElem?_set_ne (by omega)]
      · exact fun h => ⟨(hcold h).1, (hkv _ hne).trans (hcold h).2⟩
      · exact fun h => ⟨(hwarm h).1, (hkv _ hne).trans (hwarm h).2⟩
    · obtain rfl := List.mem_singleton.mp ha
      refine ⟨⟨k, hseq, List.getElem?_set_self hlt⟩, ?_, ?_, ?_, ?_⟩
      · rw [hprompt, hhistory, hwaiting.prompt.2]
        exact ⟨by have := hwaiting.prompt; omega, le_rfl⟩
      · rw [hhistory]
        exact hwaiting.fits
      · rwa [hseq]
      · rwa [hseq]
  · rw [List.map_append, List.nodup_append]
    refine ⟨hcoherent.distinct, List.nodup_singleton _, ?_⟩
    intro seq hseq' other hother
    obtain ⟨a, ha, rfl⟩ := List.mem_map.mp hseq'
    obtain rfl := List.mem_singleton.mp hother
    rw [hseq]
    exact hothers a ha
  · intro j hj
    by_cases hjk : k = j
    · exact ⟨r', by simp, by rw [hseq, hjk]⟩
    · rw [List.getElem?_set_ne hjk] at hj
      obtain ⟨a, ha, heq⟩ := hcoherent.owned j hj
      exact ⟨a, List.mem_append_left _ ha, heq⟩
  · intro j hj
    by_cases hjk : k = j
    · rw [← hjk, List.getElem?_set_self hlt] at hj
      cases hj
    · rw [List.getElem?_set_ne hjk] at hj
      exact (hkv j (by omega)).trans (hcoherent.clear j hj)
  · simpa [service, hid, hdialogue] using hcoherent.numbered

/-- What a donor's sequence holds of a common prompt. -/
theorem donor_prefix {slotUsed : List Bool} {kv : KvCache} {active : List (Request K)}
    {d r : Request K} (hdonor : donorFor active r = some d) (hseated : Seated scheduler slotUsed kv d)
    (hready : ¬ d.nPast < d.promptLen) :
    (kv d.seqId).take (r.history.length - 1) = r.history.dropLast := by
  unfold donorFor at hdonor
  split at hdonor
  · have hmatch := List.find?_some hdonor
    simp only [Bool.and_eq_true, beq_iff_eq] at hmatch
    obtain ⟨hlength, hpre⟩ := hmatch
    have hwarm : d.needsPrefill = false := by
      cases hcold : d.needsPrefill with
      | false => rfl
      | true =>
          have := (hseated.cold hcold).1
          have := hseated.prompt.1
          omega
    obtain ⟨hpast, hkv⟩ := hseated.warm hwarm
    rw [hkv, List.dropLast_eq_take, List.dropLast_eq_take, List.take_take]
    conv_rhs => rw [hpre, List.take_take]
    congr 1
    simp only [List.length_take]
    omega
  · cases hdonor

/-- An iteration of `admit`. -/
theorem Coherent.activate {s : SchedulerState K} {r : Request K} {rest : List (Request K)}
    (hcoherent : Coherent scheduler { s with pending := r :: rest })
    (hroom : (s.active.length : ℤ) < scheduler.nParallel) {donor : Option (Request K)}
    (hdonor : ∀ d ∈ donor, donorFor s.active r = some d ∧ ¬ d.nPast < d.promptLen) :
    Coherent scheduler { activate s donor r with pending := rest } := by
  obtain ⟨k, hfind, hfree⟩ := exists_free_slot hcoherent hroom
  have hwaiting := hcoherent.waiting r (List.mem_cons_self ..)
  cases donor with
  | none =>
      simp only [Scheduler.activate, takeSlot_eq hfind]
      refine hcoherent.seat hfree (fun _ _ => rfl) rfl rfl rfl rfl ?_ ?_
      · exact fun _ => ⟨hwaiting.cold.1, hcoherent.clear k hfree⟩
      · intro hwarm
        rw [hwaiting.cold.2] at hwarm
        cases hwarm
  | some d =>
      obtain ⟨hfound, hready⟩ := hdonor d rfl
      have hmem : d ∈ s.active := by
        unfold donorFor at hfound
        split at hfound
        · exact List.mem_of_find?_eq_some hfound
        · cases hfound
      simp only [Scheduler.activate, takeSlot_eq hfind]
      refine hcoherent.seat hfree ?_ rfl rfl rfl rfl (fun hcold => by cases hcold) ?_
      · exact fun j hj => Function.update_of_ne hj _ _
      · have := hwaiting.prompt
        refine fun _ => ⟨by dsimp only; omega, ?_⟩
        rw [copySeq, Function.update_self, hwaiting.prompt.2]
        exact donor_prefix hfound (hcoherent.seated d hmem) hready

omit [Field K] [LinearOrder K] in
/-- Activation changes a request in its slot fields only. -/
theorem map_activate {β : Type*} {f : Request K → β}
    (hf : ∀ r seqId nPast needsPrefill, f { r with seqId, nPast, needsPrefill } = f r)
    (s : SchedulerState K) (donor : Option (Request K)) (r : Request K) :
    (activate s donor r).active.map f = s.active.map f ++ [f r] := by
  unfold activate takeSlot
  cases donor <;> cases s.slotUsed.findIdx? (! ·) <;> simp [hf]

omit [Field K] [LinearOrder K] in
theorem service_activate (s : SchedulerState K) (donor : Option (Request K)) (r : Request K)
    (rest : List (Request K)) :
    service { activate s donor r with pending := rest } =
      service { s with pending := r :: rest } := by
  have hactive := map_activate (f := fun r => (r.id, r.dialogue)) (fun _ _ _ _ => rfl) s donor r
  simp only [service, List.map_append, hactive, List.map_cons, List.append_assoc,
    List.singleton_append]
  unfold activate
  cases donor <;> rfl

/-- Admission keeps the invariant, and is invisible to the service. -/
theorem admitFrom_spec (pending : List (Request K)) (s : SchedulerState K)
    (hcoherent : Coherent scheduler { s with pending }) :
    Coherent scheduler (scheduler.admitFrom pending s) ∧
      service (scheduler.admitFrom pending s) = service { s with pending } ∧
      s.active <+: (scheduler.admitFrom pending s).active := by
  induction pending generalizing s with
  | nil => exact ⟨hcoherent, rfl, List.prefix_rfl⟩
  | cons r rest ih =>
      have hgo : ∀ donor : Option (Request K), (s.active.length : ℤ) < scheduler.nParallel →
          (∀ d ∈ donor, donorFor s.active r = some d ∧ ¬ d.nPast < d.promptLen) →
          Coherent scheduler (scheduler.admitFrom rest (activate s donor r)) ∧
            service (scheduler.admitFrom rest (activate s donor r)) =
              service { s with pending := r :: rest } ∧
            s.active <+: (scheduler.admitFrom rest (activate s donor r)).active := by
        intro donor hroom hdonor
        obtain ⟨hafter, hservice, hpre⟩ := ih _ (hcoherent.activate hroom hdonor)
        refine ⟨hafter, hservice.trans (service_activate s donor r rest), List.IsPrefix.trans ?_ hpre⟩
        unfold activate
        cases donor <;> exact List.prefix_append _ _
      unfold admitFrom
      split
      · exact ⟨hcoherent, rfl, List.prefix_rfl⟩
      · rename_i hadmitted
        rw [not_or, not_le] at hadmitted
        split
        · rename_i d hdonor
          split
          · exact ⟨hcoherent, rfl, List.prefix_rfl⟩
          · rename_i hready
            refine hgo (some d) hadmitted.1 ?_
            rintro _ ⟨⟩
            exact ⟨hdonor, hready⟩
        · exact hgo none hadmitted.1 (by simp)

/-- Something is admitted when nothing is active. -/
theorem admit_active_ne_nil {s : SchedulerState K} (hcoherent : Coherent scheduler s)
    (hparallel : 1 ≤ scheduler.nParallel) (hlive : s.active ++ s.pending ≠ []) :
    (scheduler.admitPending s).active ≠ [] := by
  cases hactive : s.active with
  | cons r rest =>
      obtain ⟨-, -, hpre⟩ := admitFrom_spec s.pending s hcoherent
      intro hnil
      rw [admitPending] at hnil
      rw [hnil, hactive] at hpre
      simp at hpre
  | nil =>
      cases hpending : s.pending with
      | nil => simp [hactive, hpending] at hlive
      | cons r rest =>
          have hwaiting := hcoherent.waiting r (by simp [hpending])
          have hctx := scheduler.backend.contextLength_lt
          have hfits :
              ¬ scheduler.nCtx < (cellsUsed s.active + r.history.length % 2 ^ 32) % 2 ^ 32 := by
            have hneed := hwaiting.fits
            unfold nCtx at hneed ⊢
            simp only [cellsUsed, hactive, List.map_nil, List.sum_nil]
            omega
          have hdonor : donorFor s.active r = none := by
            simp [donorFor, findDonor, hactive]
          have hcoherent' : Coherent scheduler { s with pending := r :: rest } := by
            rw [← hpending]
            exact hcoherent
          have hroom : (s.active.length : ℤ) < scheduler.nParallel := by
            simp only [hactive, List.length_nil]
            omega
          obtain ⟨-, -, hpre⟩ := admitFrom_spec rest (activate s none r)
            (hcoherent'.activate hroom (by simp))
          have hne : (activate s none r).active ≠ [] := by simp [activate]
          rw [admitPending, hpending, admitFrom, if_neg (not_or.mpr ⟨not_le.mpr hroom, hfits⟩), hdonor]
          intro hnil
          rw [hnil] at hpre
          exact hne (List.prefix_nil.mp hpre)

/-! ## Serving a batch -/

variable (scheduler) in
/-- The sampling loop splits the active requests into those that stay and those that
leave. -/
theorem staying_or_leaving (r : Request K) :
    (∃ r' next, scheduler.staying r = some r' ∧ scheduler.leaving r = none ∧
        scheduler.advance r.dialogue = .inl r'.dialogue ∧ r'.history = r.history ++ [next] ∧
        r'.id = r.id ∧ r'.seqId = r.seqId ∧ r'.promptLen = r.promptLen ∧
        r'.nPast = r.nPast + (sliceOf r).tokens.length ∧ r'.needsPrefill = false) ∨
      ∃ r' error, scheduler.staying r = none ∧ scheduler.leaving r = some (r', error) ∧
        scheduler.advance r.dialogue = .inr ⟨error, r'.delivered⟩ ∧ r'.id = r.id ∧
        r'.seqId = r.seqId := by
  have hhistory : r.history = (decoded r).history := rfl
  unfold staying leaving
  rw [hhistory]
  rcases emitToken_cases scheduler (decoded r) with
    ⟨r', next, hemit, hadvance, hnext, hid, hseq, hprompt, hpast, hwarm⟩ |
      ⟨r', error, hemit, hadvance, hid, hseq⟩
  · exact .inl ⟨r', next, by rw [hemit, Sum.getLeft?_inl], by rw [hemit, Sum.getRight?_inl],
      hadvance, hnext, hid, hseq, hprompt, hpast, hwarm⟩
  · exact .inr ⟨r', error, by rw [hemit, Sum.getLeft?_inr], by rw [hemit, Sum.getRight?_inr],
      hadvance, hid, hseq⟩

/-- The requests that stay are the jobs that stay. -/
theorem map_staying (requests : List (Request K)) :
    (requests.filterMap scheduler.staying).map (fun r => (r.id, r.dialogue)) =
      (requests.map fun r => (r.id, r.dialogue)).filterMap
        (Service.stays scheduler.advance) := by
  rw [List.map_filterMap, List.filterMap_map]
  refine List.filterMap_congr fun r _ => ?_
  rcases staying_or_leaving scheduler r with
    ⟨r', next, hstay, -, hadvance, -, hid, -⟩ | ⟨r', error, hstay, -, hadvance, -⟩
  · simp [hstay, Service.stays, hadvance, hid]
  · simp [hstay, Service.stays, hadvance]

/-- The requests that leave are the jobs that leave. -/
theorem map_leaving (requests : List (Request K)) :
    (requests.filterMap scheduler.leaving).map
        (fun p => (p.1.id, (⟨p.2, p.1.delivered⟩ : Outcome))) =
      (requests.map fun r => (r.id, r.dialogue)).filterMap
        (Service.leaves scheduler.advance) := by
  rw [List.map_filterMap, List.filterMap_map]
  refine List.filterMap_congr fun r _ => ?_
  rcases staying_or_leaving scheduler r with
    ⟨r', next, -, hleave, hadvance, -⟩ | ⟨r', error, -, hleave, hadvance, hid, -⟩
  · simp [hleave, Service.leaves, hadvance]
  · simp [hleave, Service.leaves, hadvance, hid]

omit [Field K] [LinearOrder K] in
theorem map_seqId_sliceOf (requests : List (Request K)) :
    (requests.map sliceOf).map SeqSlice.seqId = requests.map Request.seqId := by
  rw [List.map_map]
  refine List.map_congr_left fun r _ => ?_
  simp only [Function.comp_apply, sliceOf]
  split <;> rfl

/-- A batch has no slice for a free slot. -/
theorem Coherent.free_notMem {s : SchedulerState K} (hcoherent : Coherent scheduler s) {k : ℕ}
    (hfree : s.slotUsed[k]? = some false) : (k : ℤ) ∉ (s.active.map sliceOf).map SeqSlice.seqId := by
  rw [map_seqId_sliceOf]
  intro hmem
  obtain ⟨r, hr, heq⟩ := List.mem_map.mp hmem
  obtain ⟨j, hj, hused⟩ := (hcoherent.seated r hr).slot
  obtain rfl : j = k := by omega
  rw [hfree] at hused
  cases hused

/-- Decoding the batch of a coherent state: every request gets the logits of its
history, and its sequence holds it. -/
theorem decodeSlices_active {s : SchedulerState K} (hcoherent : Coherent scheduler s) :
    (scheduler.backend.decodeSlices (s.active.map sliceOf) s.kv).1 =
        s.active.map (fun r => scheduler.backend.logits r.history) ∧
      (∀ r ∈ s.active, (scheduler.backend.decodeSlices (s.active.map sliceOf) s.kv).2 r.seqId =
        r.history) ∧
      ∀ k : ℕ, s.slotUsed[k]? = some false →
        (scheduler.backend.decodeSlices (s.active.map sliceOf) s.kv).2 k = [] := by
  have hslice : ∀ r : Request K, (sliceOf r).seqId = r.seqId := by
    intro r
    unfold sliceOf
    split <;> rfl
  obtain ⟨hlogits, hkv, hframe⟩ := decodeSlices_spec scheduler.backend s.kv
    (map_seqId_sliceOf s.active ▸ hcoherent.distinct)
  refine ⟨?_, ?_, ?_⟩
  · rw [hlogits, List.map_map]
    refine List.map_congr_left fun r hr => ?_
    rw [Function.comp_apply, hslice, (hcoherent.seated r hr).slice.1]
  · intro r hr
    rw [← hslice r, hkv _ (List.mem_map_of_mem hr), hslice, (hcoherent.seated r hr).slice.1]
  · intro k hk
    rw [hframe k, hcoherent.clear k hk]
    intro slice hmem heq
    exact hcoherent.free_notMem hk (heq ▸ List.mem_map_of_mem hmem)

/-- Some requests leave and the others keep their slots. -/
theorem Coherent.retire {s : SchedulerState K} (hcoherent : Coherent scheduler s) {kv : KvCache}
    (hclear : ∀ k : ℕ, s.slotUsed[k]? = some false → kv k = [])
    {still : List (Request K)} {gone : List (Request K × Option Fault)}
    (hdistinct : (still.map Request.seqId).Nodup)
    (hstill : ∀ r ∈ still, Seated scheduler s.slotUsed kv r)
    (hall : ∀ r ∈ s.active,
      (∃ r' ∈ still, r'.seqId = r.seqId) ∨ ∃ p ∈ gone, p.1.seqId = r.seqId)
    (hapart : ∀ r ∈ still, ∀ p ∈ gone, p.1.seqId ≠ r.seqId)
    (hnumbered : (service { retire { s with kv } gone with active := still }).Numbered) :
    Coherent scheduler { retire { s with kv } gone with active := still } where
  seated := by
    intro r hr
    obtain ⟨⟨k, hk, hused⟩, hprompt, hfits, hcold, hwarm⟩ := hstill r hr
    have hnot : ¬ ∃ p ∈ gone, p.1.seqId = k := by
      rintro ⟨p, hp, heq⟩
      exact hapart r hr p hp (heq.trans hk.symm)
    have hkv : (Scheduler.retire { s with kv } gone).kv r.seqId = kv r.seqId := by
      rw [hk, retire_kv, if_neg hnot]
    refine ⟨⟨k, hk, ?_⟩, hprompt, hfits, ?_, ?_⟩
    · dsimp only
      rw [retire_slotUsed, if_neg hnot]
      exact hused
    · exact fun h => ⟨(hcold h).1, hkv.trans (hcold h).2⟩
    · exact fun h => ⟨(hwarm h).1, hkv.trans (hwarm h).2⟩
  distinct := hdistinct
  owned := by
    intro k hk
    dsimp only at hk
    rw [retire_slotUsed] at hk
    by_cases hgone : ∃ p ∈ gone, p.1.seqId = k
    · rw [if_pos hgone] at hk
      cases hslot : s.slotUsed[k]? <;> simp [hslot] at hk
    · rw [if_neg hgone] at hk
      obtain ⟨r, hr, heq⟩ := hcoherent.owned k hk
      rcases hall r hr with ⟨r', hr', hseq⟩ | ⟨p, hp, hseq⟩
      · exact ⟨r', hr', hseq.trans heq⟩
      · exact absurd ⟨p, hp, hseq.trans heq⟩ hgone
  clear := by
    intro k hk
    dsimp only at hk ⊢
    rw [retire_slotUsed] at hk
    rw [retire_kv]
    by_cases hgone : ∃ p ∈ gone, p.1.seqId = k
    · rw [if_pos hgone]
    · rw [if_neg hgone] at hk ⊢
      exact hclear k hk
  waiting := by
    intro r hr
    dsimp only at hr
    rw [retire_pending] at hr
    exact hcoherent.waiting r hr
  slots := by
    dsimp only
    rw [retire_length]
    exact hcoherent.slots
  numbered := hnumbered

/-- A turn as one of a job. -/
def outcomeOf (turn : Request K → Request K ⊕ (Request K × Option Fault)) (r : Request K) :
    Request K ⊕ Outcome :=
  (turn r).map id fun p => ⟨p.2, p.1.delivered⟩

/-- The state after every active request has taken its turn. -/
def turnOver (s : SchedulerState K) (kv : KvCache)
    (turn : Request K → Request K ⊕ (Request K × Option Fault)) : SchedulerState K :=
  { retire { s with kv } (s.active.filterMap fun r => (turn r).getRight?) with
    active := s.active.filterMap fun r => (turn r).getLeft? }

theorem roster_turnOver {s : SchedulerState K} (kv : KvCache)
    {turn : Request K → Request K ⊕ (Request K × Option Fault)}
    (hturn : ∀ r ∈ s.active, Turn scheduler r (turn r)) :
    roster (turnOver s kv turn) = (roster s).tick (outcomeOf turn) s.active.length := by
  have hlength : s.active.length = (s.active.map fun r => (r.id, r)).length := by simp
  have hstays : (s.active.filterMap fun r => (turn r).getLeft?).map (fun r => (r.id, r)) =
      (s.active.map fun r => (r.id, r)).filterMap (Service.stays (outcomeOf turn)) := by
    rw [List.map_filterMap, List.filterMap_map]
    refine List.filterMap_congr fun r hr => ?_
    have hr := hturn r hr
    cases hafter : turn r with
    | inl r' =>
        rw [hafter] at hr
        cases hr with
        | stays next hhistory hroom hid => simp [Service.stays, outcomeOf, hafter, hid]
    | inr p => simp [Service.stays, outcomeOf, hafter]
  have hleaves : (s.active.filterMap fun r => (turn r).getRight?).map
        (fun p => (p.1.id, (⟨p.2, p.1.delivered⟩ : Outcome))) =
      (s.active.map fun r => (r.id, r)).filterMap (Service.leaves (outcomeOf turn)) := by
    rw [List.map_filterMap, List.filterMap_map]
    refine List.filterMap_congr fun r hr => ?_
    have hr := hturn r hr
    cases hafter : turn r with
    | inl r' => simp [Service.leaves, outcomeOf, hafter]
    | inr p =>
        rw [hafter] at hr
        cases hr with
        | leaves error hid => simp [Service.leaves, outcomeOf, hafter, hid]
  simp only [roster, turnOver, Service.tick, retire_pending, retire_done, retire_nextId,
    List.map_append, hstays, hleaves]
  rw [hlength, List.take_left, List.drop_left]

/-- Every active request takes its turn; those that stay have their history decoded. -/
theorem Coherent.turnOver {s : SchedulerState K} (hcoherent : Coherent scheduler s) {kv : KvCache}
    {turn : Request K → Request K ⊕ (Request K × Option Fault)}
    (hturn : ∀ r ∈ s.active, Turn scheduler r (turn r))
    (hkv : ∀ r ∈ s.active, ∀ r', turn r = .inl r' → kv r.seqId = r.history)
    (hclear : ∀ k : ℕ, s.slotUsed[k]? = some false → kv k = []) :
    Coherent scheduler (Scheduler.turnOver s kv turn) := by
  have hmem : ∀ r ∈ s.active, ∀ r' ∈ s.active, r.seqId = r'.seqId → r = r' :=
    fun r hr r' hr' => List.inj_on_of_nodup_map hcoherent.distinct hr hr'
  have hnumbered : (service (Scheduler.turnOver s kv turn)).Numbered := by
    have hbefore := hcoherent.numbered
    rw [service_eq_map, Service.numbered_map] at hbefore ⊢
    rw [roster_turnOver kv hturn]
    exact hbefore.tick _
  refine hcoherent.retire hclear ?_ ?_ ?_ ?_ hnumbered
  · refine hcoherent.distinct.sublist ?_
    have hsub : ∀ requests : List (Request K), (∀ r ∈ requests, r ∈ s.active) →
        ((requests.filterMap fun r => (turn r).getLeft?).map Request.seqId).Sublist
          (requests.map Request.seqId) := by
      intro requests hrequests
      induction requests with
      | nil => exact .slnil
      | cons r rest ih =>
          have hrest := ih fun r' hr' => hrequests r' (List.mem_cons_of_mem _ hr')
          have hr := hturn r (hrequests r (List.mem_cons_self ..))
          cases hafter : turn r with
          | inl r' =>
              rw [hafter] at hr
              cases hr with
              | stays next hhistory hroom hid hseq =>
                  rw [List.filterMap_cons_some (by rw [hafter, Sum.getLeft?_inl]), List.map_cons,
                    List.map_cons, hseq]
                  exact hrest.cons_cons _
          | inr p =>
              rw [List.filterMap_cons_none (by rw [hafter, Sum.getLeft?_inr]), List.map_cons]
              exact hrest.cons _
    exact hsub s.active fun r hr => hr
  · intro after hafter
    obtain ⟨r, hr, hstay⟩ := List.mem_filterMap.mp hafter
    have hstays : turn r = .inl after := Sum.getLeft?_eq_some_iff.mp hstay
    obtain ⟨hslot, hprompt, hfits, -, -⟩ := hcoherent.seated r hr
    have hof := hturn r hr
    have hheld := hkv r hr after hstays
    rw [hstays] at hof
    cases hof with
    | stays next hhistory hroom hid hseq hpromptLen hpast hwarm =>
        have hlength : after.history.length = r.history.length + 1 := by simp [hhistory]
        refine ⟨by rwa [hseq], by rw [hpromptLen]; omega, ?_, by simp [hwarm], fun _ => ⟨?_, ?_⟩⟩
        · rw [hlength]
          exact hroom.le
        · rw [hpast, (hcoherent.seated r hr).slice.2.2, hlength]
        · rw [hseq, hheld, hhistory, List.dropLast_concat]
  · intro r hr
    have hof := hturn r hr
    cases hafter : turn r with
    | inl r' =>
        rw [hafter] at hof
        cases hof with
        | stays next hhistory hroom hid hseq =>
            refine .inl ⟨r', List.mem_filterMap.mpr ⟨r, hr, ?_⟩, hseq⟩
            rw [hafter, Sum.getLeft?_inl]
    | inr p =>
        rw [hafter] at hof
        cases hof with
        | @leaves r' error hid hseq =>
            refine .inr ⟨(r', error), List.mem_filterMap.mpr ⟨r, hr, ?_⟩, hseq⟩
            rw [hafter, Sum.getRight?_inr]
  · intro after hafter p hp heq
    obtain ⟨r, hr, hstay⟩ := List.mem_filterMap.mp hafter
    obtain ⟨other, hother, hleave⟩ := List.mem_filterMap.mp hp
    have hstays : turn r = .inl after := Sum.getLeft?_eq_some_iff.mp hstay
    have hleaves : turn other = .inr p := Sum.getRight?_eq_some_iff.mp hleave
    have hof := hturn r hr
    have hof' := hturn other hother
    rw [hstays] at hof
    rw [hleaves] at hof'
    cases hof with
    | stays next hhistory hroom hid hseq =>
        cases hof' with
        | leaves error hid' hseq' =>
            have hsame := hmem other hother r hr (hseq'.symm.trans (heq.trans hseq))
            rw [hsame, hstays] at hleaves
            cases hleaves

/-- A batch the backend decodes is one tick for the active requests. -/
theorem serve_ok {s : SchedulerState K} (hcoherent : Coherent scheduler s)
    (hok : scheduler.backend.refuses s.kv (s.active.map sliceOf) = none) :
    Coherent scheduler (scheduler.serve s) ∧
      service (scheduler.serve s) =
        (service s).tick scheduler.advance s.active.length := by
  obtain ⟨hlogits, hkv, hclear⟩ := decodeSlices_active hcoherent
  have hserve : scheduler.serve s =
      turnOver s (scheduler.backend.decodeSlices (s.active.map sliceOf) s.kv).2
        fun r => scheduler.emitToken (decoded r) (scheduler.backend.logits r.history) := by
    simp only [serve, SeqBackend.decodeSeqs, hok, hlogits, settle_map]
    rfl
  have hservice : service (scheduler.serve s) =
      (service s).tick scheduler.advance s.active.length := by
    have hlength : s.active.length = (s.active.map fun r => (r.id, r.dialogue)).length := by simp
    simp only [serve, SeqBackend.decodeSeqs, hok, hlogits, settle_eq, service, Service.tick,
      retire_pending, retire_done, retire_nextId, List.map_append, map_staying, map_leaving]
    rw [hlength, List.take_left, List.drop_left]
  refine ⟨?_, hservice⟩
  rw [hserve]
  exact hcoherent.turnOver (fun r _ => turn_emitToken scheduler r _) (fun r hr _ _ => hkv r hr) hclear

end Scheduler

end Reame.Core
