import Reame.Core.Sampler

/-!
# The multi-request scheduler

`Scheduler` packs one slice per active request into a single multi-sequence forward
pass.  `submit` enqueues, `step` admits what fits, decodes the batch, samples one
token per request and retires the finished ones.

The KV cache is a function from sequence ids to tokens.  Faults of `decode_seqs` are
a parameter of the backend (`refuses`), faults of a callback one of its answers.
The `std::map` of finished requests is a list, newest first; beside the error it
records what the request's callback had received, and a live request carries the
same list in `delivered`, since a closure may remember it.
-/

namespace Reame.Core

/-- `reame::SeqSlice`. -/
structure SeqSlice where
  seqId : ℤ
  tokens : List TokenId
  posStart : ℕ
deriving DecidableEq, Repr

/-- The content of a multi-sequence KV cache. -/
abbrev KvCache := ℤ → List TokenId

/-- A backend with several sequences.  `refuses` says which batches `decode_seqs`
throws on, and what; `spoils` is what it leaves in the sequences of such a batch. -/
structure SeqBackend (K : Type*) extends LlamaBackend K where
  refuses : KvCache → List SeqSlice → Option Fault
  spoils : KvCache → List SeqSlice → KvCache := fun kv _ => kv
  contextLength_lt : contextLength < 2 ^ 32

namespace SeqBackend

variable {K : Type*} (backend : SeqBackend K)

/-- A batch, slice by slice: each one continues its own sequence. -/
def decodeSlices : List SeqSlice → KvCache → List (List K) × KvCache
  | [], kv => ([], kv)
  | slice :: rest, kv =>
      let tokens := kv slice.seqId ++ slice.tokens
      let (logits, kv) := decodeSlices rest (Function.update kv slice.seqId tokens)
      (backend.logits tokens :: logits, kv)

/-- The cache after a batch that has failed: sequences without a slice are as they were. -/
def spoiled (slices : List SeqSlice) (kv : KvCache) : KvCache := fun seqId =>
  if seqId ∈ slices.map SeqSlice.seqId then backend.spoils kv slices seqId else kv seqId

/-- `decode_seqs`. -/
def decodeSeqs (slices : List SeqSlice) (kv : KvCache) :
    Except Fault (List (List K)) × KvCache :=
  match backend.refuses kv slices with
  | some fault => (.error fault, backend.spoiled slices kv)
  | none =>
      let (logits, kv) := backend.decodeSlices slices kv
      (.ok logits, kv)

end SeqBackend

/-- `clear_seq`. -/
def clearSeq (kv : KvCache) (seqId : ℤ) : KvCache := Function.update kv seqId []

/-- `copy_seq`: the first `n` positions of `src` become the content of `dst`. -/
def copySeq (kv : KvCache) (src dst : ℤ) (n : ℕ) : KvCache :=
  Function.update kv dst ((kv src).take n)

/-! ## Requests -/

/-- A request, pending or active. -/
structure Request (K : Type*) where
  id : ℕ
  history : List TokenId
  promptLen : ℕ
  gen : GenerationConfig K
  onToken : TokenCallback
  sampler : Sampler K
  emitted : ℕ := 0
  seqId : ℤ := -1
  nPast : ℕ := 0
  needsPrefill : Bool := true
  delivered : List TokenId := []

/-- How a request ended: the error, and the tokens its callback received. -/
structure Outcome where
  error : Option Fault
  delivered : List TokenId
deriving DecidableEq, Repr

/-- `Scheduler::Impl`, with the content of the KV cache. -/
structure SchedulerState (K : Type*) where
  pending : List (Request K)
  active : List (Request K)
  slotUsed : List Bool
  done : List (ℕ × Outcome)
  nextId : ℕ
  kv : KvCache

/-- A scheduler: what stays the same over its life. -/
structure Scheduler (K : Type*) [Field K] [LinearOrder K] where
  lib : StdLib K
  backend : SeqBackend K
  nParallel : ℤ

namespace Scheduler

variable {K : Type*} [Field K] [LinearOrder K] (scheduler : Scheduler K)

/-- `n_ctx`. -/
def nCtx : ℕ := scheduler.backend.contextLength

/-- The state a scheduler is built with. -/
def initial : SchedulerState K where
  pending := []
  active := []
  slotUsed := List.replicate (max scheduler.nParallel 1).toNat false
  done := []
  nextId := 1
  kv := fun _ => []

/-- The constructor of `Scheduler`. -/
def construct : Except Fault (SchedulerState K) :=
  if scheduler.nParallel < 1 then .error (.engineError "n_parallel must be >= 1")
  else .ok scheduler.initial

/-- `submit`: the id of the request and the state with it enqueued. -/
def submit (s : SchedulerState K) (prompt : List TokenId) (gen : GenerationConfig K)
    (onToken : Option TokenCallback) : Except Fault (ℕ × SchedulerState K) :=
  if prompt = [] then .error (.engineError "prompt is empty")
  else if scheduler.nCtx < prompt.length then
    .error (.engineError ("prompt of " ++ toString prompt.length ++
      " tokens exceeds context length " ++ toString scheduler.nCtx))
  else
    match onToken with
    | none => .error (.engineError "callback is null")
    | some onToken =>
        let request : Request K :=
          { id := s.nextId
            history := prompt
            promptLen := prompt.length
            gen
            onToken
            sampler := Sampler.new scheduler.lib gen }
        .ok (s.nextId, { s with pending := s.pending ++ [request], nextId := s.nextId + 1 })

/-! ## Admission -/

/-- `cells_used`, a `std::uint32_t`. -/
def cellsUsed (active : List (Request K)) : ℕ :=
  (active.map fun r => r.history.length).sum % 2 ^ 32

/-- `find_donor`. -/
def findDonor (active : List (Request K)) (prompt : List TokenId) : Option (Request K) :=
  active.find? fun a => a.promptLen == prompt.length && prompt == a.history.take prompt.length

/-- The donor `admit` looks for: only for prompts of more than one token. -/
def donorFor (active : List (Request K)) (r : Request K) : Option (Request K) :=
  if 1 < r.history.length then findDonor active r.history else none

/-- The first free slot, which becomes used. -/
def takeSlot (slotUsed : List Bool) (r : Request K) : List Bool × Request K :=
  match slotUsed.findIdx? (! ·) with
  | some slot => (slotUsed.set slot true, { r with seqId := slot })
  | none => (slotUsed, r)

/-- The end of an iteration of `admit`: the request takes a slot and, if there is a
donor, its prompt. -/
def activate (s : SchedulerState K) (donor : Option (Request K)) (r : Request K) :
    SchedulerState K :=
  let (slotUsed, r) := takeSlot s.slotUsed r
  match donor with
  | some d =>
      let shared := r.promptLen - 1
      { s with
        slotUsed
        kv := copySeq s.kv d.seqId r.seqId shared
        active := s.active ++ [{ r with nPast := shared, needsPrefill := false }] }
  | none => { s with slotUsed, active := s.active ++ [r] }

/-- The loop of `admit`, over the pending requests. -/
def admitFrom : List (Request K) → SchedulerState K → SchedulerState K
  | [], s => { s with pending := [] }
  | r :: rest, s =>
      if scheduler.nParallel ≤ s.active.length ∨
          scheduler.nCtx < (cellsUsed s.active + r.history.length % 2 ^ 32) % 2 ^ 32 then
        { s with pending := r :: rest }
      else
        match donorFor s.active r with
        | some d =>
            if d.nPast < d.promptLen then { s with pending := r :: rest }
            else admitFrom rest (activate s (some d) r)
        | none => admitFrom rest (activate s none r)

/-- `admit`. -/
def admitPending (s : SchedulerState K) : SchedulerState K := scheduler.admitFrom s.pending s

/-! ## One batch -/

/-- The slice a request contributes to the batch. -/
def sliceOf (r : Request K) : SeqSlice :=
  if r.needsPrefill then ⟨r.seqId, r.history, 0⟩
  else ⟨r.seqId, [r.history.getLastD 0], r.nPast⟩

/-- `finish`. -/
def finish (s : SchedulerState K) (r : Request K) (error : Option Fault) : SchedulerState K :=
  let s := { s with done := (r.id, ⟨error, r.delivered⟩) :: s.done }
  if 0 ≤ r.seqId then
    { s with kv := clearSeq s.kv r.seqId, slotUsed := s.slotUsed.set r.seqId.toNat false }
  else s

/-- What one request does with its logits: sample, deliver, and go on or retire. -/
def emitToken (r : Request K) (logits : List K) : Request K ⊕ (Request K × Option Fault) :=
  match r.sampler.sample scheduler.lib logits r.history with
  | (.error fault, sampler) => .inr ({ r with sampler }, some fault)
  | (.ok next, sampler) =>
      let r := { r with sampler }
      if scheduler.backend.isEog next then .inr (r, none)
      else
        let r := { r with delivered := r.delivered ++ [next] }
        match r.onToken r.delivered with
        | .throws => .inr (r, some .callback)
        | .stop =>
            .inr ({ r with history := r.history ++ [next], emitted := r.emitted + 1 }, none)
        | .keepGoing =>
            let r := { r with history := r.history ++ [next], emitted := r.emitted + 1 }
            if r.gen.maxTokens ≤ r.emitted ∨ scheduler.nCtx ≤ r.history.length then .inr (r, none)
            else .inl r

/-- The sampling loop of `step`: the requests that stay active, and the state after
the others have been finished. -/
def settle : List (Request K) → List SeqSlice → List (List K) → SchedulerState K →
    List (Request K) × SchedulerState K
  | r :: rest, slice :: slices, logits :: allLogits, s =>
      let r := { r with nPast := r.nPast + slice.tokens.length, needsPrefill := false }
      match scheduler.emitToken r logits with
      | .inl r =>
          let (stillActive, s) := settle rest slices allLogits s
          (r :: stillActive, s)
      | .inr (r, error) => settle rest slices allLogits (finish s r error)
  | _, _, _, s => ([], s)

/-- Everything after admission: decode the batch and settle it, or fail everything in
flight. -/
def serve (s : SchedulerState K) : SchedulerState K :=
  let slices := s.active.map sliceOf
  match scheduler.backend.decodeSeqs slices s.kv with
  | (.error fault, kv) =>
      { s.active.foldl (fun s r => finish s r (some fault)) { s with kv } with active := [] }
  | (.ok logits, kv) =>
      let (stillActive, s) := scheduler.settle s.active slices logits { s with kv }
      { s with active := stillActive }

/-- `step`: the state after it, and whether there is work left. -/
def step (s : SchedulerState K) : SchedulerState K × Bool :=
  let s := scheduler.admitPending s
  if s.active = [] then (s, s.pending ≠ [])
  else
    let s := scheduler.serve s
    (s, s.active ≠ [] ∨ s.pending ≠ [])

/-! ## Observers -/

/-- `finished`. -/
def finished (s : SchedulerState K) (id : ℕ) : Bool := (s.done.lookup id).isSome

/-- `error`. -/
def error (s : SchedulerState K) (id : ℕ) : Option Fault := (s.done.lookup id).bind Outcome.error

/-- `idle`. -/
def idle (s : SchedulerState K) : Bool := s.active.isEmpty && s.pending.isEmpty

/-- The tokens a request's callback has received so far. -/
def received (s : SchedulerState K) (id : ℕ) : List TokenId :=
  match s.done.lookup id with
  | some outcome => outcome.delivered
  | none =>
      match (s.active ++ s.pending).find? (·.id == id) with
      | some r => r.delivered
      | none => []

/-! ## Runs -/

/-- A call made on a scheduler. -/
inductive Event (K : Type*)
  | submit (prompt : List TokenId) (gen : GenerationConfig K) (onToken : Option TokenCallback)
  | step

/-- One call; a `submit` that throws changes nothing. -/
def apply (s : SchedulerState K) : Event K → SchedulerState K
  | .submit prompt gen onToken =>
      match scheduler.submit s prompt gen onToken with
      | .ok (_, s) => s
      | .error _ => s
  | .step => (scheduler.step s).1

/-- A sequence of calls. -/
def run (s : SchedulerState K) (events : List (Event K)) : SchedulerState K :=
  events.foldl scheduler.apply s

/-- The number of `step` calls in a sequence. -/
def stepCount (events : List (Event K)) : ℕ :=
  events.countP fun event => match event with
    | .step => true
    | .submit .. => false

end Scheduler

end Reame.Core
