import Reame.Core.RealBackend
import Reame.Core.SequenceContract

/-!
# The scheduler on llama.cpp

`RealLlamaBackend::decode_seqs` packs the slices of several sequences into one `llama_batch`;
`clear_seq` and `copy_seq` go straight to the memory of the context.  None of them uses `n_past_`.

A `Deployment` is a scheduler together with the context its calls go to.  `deployment_serves`
follows any run of it: after every call the context holds, sequence by sequence, what the model
of the KV cache says (`Mirrors`), and the scheduler is in the state that the model backend would
have brought it to, a step of which may throw.  So what is proved of the scheduler over its
model backend holds of the scheduler over llama.cpp.

The calls have to be made as `SequenceContract` says they are: slices that start where their
sequence ends, and copies into empty sequences.
-/

namespace Reame.Core

namespace RealBackend

variable {σ K : Type*}

section Calls

variable (api : LlamaApi σ K) (ctx : σ)

/-- The entries of a slice; the last one asks for logits. -/
def sliceBatch (slice : SeqSlice) : List BatchEntry :=
  slice.tokens.mapIdx fun t token =>
    ⟨token, toInt32 (slice.posStart + t), slice.seqId, t + 1 == slice.tokens.length⟩

/-- `slice_end`: the last entry of each slice, when the entries are numbered from `i`. -/
def sliceEnds (i : ℕ) : List SeqSlice → List ℤ
  | [] => []
  | slice :: rest => ((i + slice.tokens.length : ℕ) - 1 : ℤ) :: sliceEnds (i + slice.tokens.length) rest

/-- `decode_seqs`. -/
def decodeSeqs (slices : List SeqSlice) : Except Fault (List (List K)) × σ :=
  if (slices.map fun slice => slice.tokens.length).sum = 0 then
    (.error (.modelError "decode_seqs with no tokens"), ctx)
  else
    let (status, ctx) := api.decode ctx (slices.flatMap sliceBatch)
    if status ≠ 0 then
      (.error (.modelError ("llama_decode (multi-seq) failed with status " ++ toString status)), ctx)
    else (readLogits api ctx "no logits at multi-seq batch position " (sliceEnds 0 slices), ctx)

/-- `clear_seq`. -/
def clearSeq (seqId : ℤ) : σ := (api.memorySeqRm ctx seqId (-1) (-1)).2

/-- `copy_seq`. -/
def copySeq (src dst : ℤ) (n : ℕ) : σ := api.memorySeqCp ctx src dst 0 (toInt32 n)

/-- The context after a call. -/
def applyCall (ctx : σ) : SeqCall K → σ
  | .decodeSeqs slices _ => (decodeSeqs api ctx slices).2
  | .clearSeq seqId => clearSeq api ctx seqId
  | .copySeq src dst n => copySeq api ctx src dst n

end Calls

/-! ## What the sequences hold -/

/-- Outside of some sequences, the context holds what the cache does. -/
def MirrorsOff (cells : σ → ℤ → List Cell) (off : Set ℤ) (ctx : σ) (kv : KvCache) : Prop :=
  ∀ seqId, seqId ∉ off → cells ctx seqId = (kv seqId).zipIdx ∧ (kv seqId).length < 2 ^ 31

/-- Every sequence of the context holds what the cache does. -/
abbrev Mirrors (cells : σ → ℤ → List Cell) (ctx : σ) (kv : KvCache) : Prop :=
  MirrorsOff cells ∅ ctx kv

variable {api : LlamaApi σ K} {cells : σ → ℤ → List Cell} {attend : List Cell → List K}
  {ctx ctx' : σ} {kv : KvCache} {slices : List SeqSlice}

theorem MirrorsOff.clearSeq (hdoc : api.Documented cells attend) {off : Set ℤ}
    (hmirrors : MirrorsOff cells off ctx kv) {seqId : ℤ} (hseq : 0 ≤ seqId) :
    MirrorsOff cells (off \ {seqId}) (clearSeq api ctx seqId) (Core.clearSeq kv seqId) := by
  have hremove : api.memorySeqRm ctx seqId (-1) (-1) = (true, RealBackend.clearSeq api ctx seqId) :=
    Prod.ext (hdoc.seqRm_whole ctx seqId) rfl
  intro other hother
  rw [hdoc.seqRm_true hseq hremove other]
  by_cases hsame : other = seqId
  · subst hsame
    rw [if_pos rfl, filter_not_all, Core.clearSeq, Function.update_self]
    exact ⟨rfl, by simp⟩
  · rw [if_neg hsame, Core.clearSeq, Function.update_of_ne hsame]
    exact hmirrors other fun hoff => hother ⟨hoff, hsame⟩

theorem Mirrors.copySeq (hdoc : api.Documented cells attend) (hmirrors : Mirrors cells ctx kv)
    {src dst : ℤ} {n : ℕ} (hdst : kv dst = []) (hn : n ≤ (kv src).length) :
    Mirrors cells (copySeq api ctx src dst n) (Core.copySeq kv src dst n) := by
  obtain ⟨hsrc, hlimit⟩ := hmirrors src (Set.notMem_empty _)
  have hempty : cells ctx dst = [] := by
    rw [(hmirrors dst (Set.notMem_empty _)).1, hdst]
    rfl
  intro other _
  rw [RealBackend.copySeq, hdoc.seqCp hempty other, toInt32_of_mem (by omega) (by omega)]
  by_cases hsame : other = dst
  · subst hsame
    rw [if_pos rfl, hsrc, filter_inRange, Core.copySeq, Function.update_self]
    exact ⟨rfl, (List.length_take_le' n (kv src)).trans_lt hlimit⟩
  · rw [if_neg hsame, Core.copySeq, Function.update_of_ne hsame]
    exact hmirrors other (Set.notMem_empty _)

/-! ## A batch of several sequences -/

/-- What a batch needs: each slice has tokens, and continues a sequence of its own. -/
structure Continues (kv : KvCache) (slices : List SeqSlice) : Prop where
  some : ∀ slice ∈ slices, slice.tokens ≠ []
  start : ∀ slice ∈ slices, slice.posStart = (kv slice.seqId).length
  distinct : (slices.map SeqSlice.seqId).Nodup

theorem length_sliceBatch (slice : SeqSlice) : (sliceBatch slice).length = slice.tokens.length :=
  List.length_mapIdx

theorem seqId_of_mem_sliceBatch {slice : SeqSlice} {entry : BatchEntry}
    (hentry : entry ∈ sliceBatch slice) : entry.seqId = slice.seqId := by
  obtain ⟨i, -, rfl⟩ := List.mem_mapIdx.mp hentry
  rfl

theorem cellsOf_append (batch later : List BatchEntry) (seqId : ℤ) :
    cellsOf (batch ++ later) seqId = cellsOf batch seqId ++ cellsOf later seqId := by
  simp [cellsOf]

/-- The cells of a slice whose positions fit. -/
theorem cellsOf_sliceBatch {slice : SeqSlice}
    (hfits : slice.posStart + slice.tokens.length < 2 ^ 31) (seqId : ℤ) :
    cellsOf (sliceBatch slice) seqId =
      if seqId = slice.seqId then slice.tokens.zipIdx slice.posStart else [] := by
  by_cases hseq : seqId = slice.seqId
  · have hall : (sliceBatch slice).filter (·.seqId = seqId) = sliceBatch slice :=
      List.filter_eq_self.mpr fun entry hentry => by
        simp [seqId_of_mem_sliceBatch hentry, hseq]
    rw [if_pos hseq, cellsOf, hall]
    refine List.ext_getElem? fun i => ?_
    rw [sliceBatch, List.getElem?_map, List.getElem?_mapIdx, List.getElem?_zipIdx]
    by_cases hi : i < slice.tokens.length
    · rw [List.getElem?_eq_getElem hi, toInt32_of_mem (by omega) (by omega)]
      simp only [Option.map_some, BatchEntry.cell]
      congr 2
    · rw [List.getElem?_eq_none (by omega)]
      rfl
  · have hnone : (sliceBatch slice).filter (·.seqId = seqId) = [] :=
      List.filter_eq_nil_iff.mpr fun entry hentry => by
        simp [seqId_of_mem_sliceBatch hentry, Ne.symm hseq]
    rw [if_neg hseq, cellsOf, hnone]
    rfl

/-- A slice has at least its own tokens in the batch. -/
theorem length_le_cellsOf {slice : SeqSlice} (hslice : slice ∈ slices) :
    slice.tokens.length ≤ (cellsOf (slices.flatMap sliceBatch) slice.seqId).length := by
  have hall : (sliceBatch slice).filter (·.seqId = slice.seqId) = sliceBatch slice :=
    List.filter_eq_self.mpr fun entry hentry => by simp [seqId_of_mem_sliceBatch hentry]
  have hsub : (sliceBatch slice).Sublist (slices.flatMap sliceBatch) := by
    rw [List.flatMap_def]
    exact List.sublist_flatten_of_mem (List.mem_map_of_mem hslice)
  calc slice.tokens.length
      = ((sliceBatch slice).filter (·.seqId = slice.seqId)).length := by
        rw [hall, length_sliceBatch]
    _ ≤ ((slices.flatMap sliceBatch).filter (·.seqId = slice.seqId)).length :=
        (hsub.filter _).length_le
    _ = (cellsOf (slices.flatMap sliceBatch) slice.seqId).length := by
        rw [cellsOf, List.length_map]

/-- A batch continues each sequence as the cache is continued. -/
theorem zipIdx_extended (hcontinues : Continues kv slices)
    (hfits : ∀ slice ∈ slices, slice.posStart + slice.tokens.length < 2 ^ 31) (seqId : ℤ) :
    (Scheduler.extended slices kv seqId).zipIdx =
      (kv seqId).zipIdx ++ cellsOf (slices.flatMap sliceBatch) seqId := by
  induction slices generalizing kv with
  | nil => simp [Scheduler.extended, cellsOf]
  | cons slice rest ih =>
      have hdistinct := hcontinues.distinct
      rw [List.map_cons, List.nodup_cons] at hdistinct
      obtain ⟨hnot, hrest⟩ := hdistinct
      -- The other slices find their sequences as they were.
      have hlater : Continues (Function.update kv slice.seqId (kv slice.seqId ++ slice.tokens))
          rest := by
        refine ⟨fun s hs => hcontinues.some s (List.mem_cons_of_mem _ hs), fun s hs => ?_, hrest⟩
        have hne : s.seqId ≠ slice.seqId := fun heq => hnot (heq ▸ List.mem_map_of_mem hs)
        rw [Function.update_of_ne hne]
        exact hcontinues.start s (List.mem_cons_of_mem _ hs)
      have hstep := ih hlater fun s hs => hfits s (List.mem_cons_of_mem _ hs)
      have hfirst := cellsOf_sliceBatch (hfits slice (List.mem_cons_self ..)) seqId
      rw [Scheduler.extended, List.foldl_cons, List.flatMap_cons, cellsOf_append, hfirst,
        ← List.append_assoc]
      refine hstep.trans ?_
      congr 1
      by_cases hseq : seqId = slice.seqId
      · subst hseq
        rw [if_pos rfl, Function.update_self, List.zipIdx_append, Nat.zero_add,
          hcontinues.start slice (List.mem_cons_self ..)]
      · rw [if_neg hseq, Function.update_of_ne hseq, List.append_nil]

/-- The last entry of a slice. -/
theorem getLast_sliceBatch {slice : SeqSlice} (hsome : slice.tokens ≠ [])
    (hfits : slice.posStart + slice.tokens.length < 2 ^ 31) :
    ∃ token, (sliceBatch slice)[slice.tokens.length - 1]? =
      some ⟨token, (slice.posStart + slice.tokens.length : ℕ) - 1, slice.seqId, true⟩ := by
  have hpos := List.length_pos_iff.mpr hsome
  refine ⟨slice.tokens[slice.tokens.length - 1], ?_⟩
  rw [sliceBatch, List.getElem?_mapIdx, List.getElem?_eq_getElem (by omega),
    toInt32_of_mem (by omega) (by omega), Option.map_some]
  congr 2
  · omega
  · simp only [beq_iff_eq]
    omega

/-- The logits that are read back, if every entry has those it should have. -/
theorem readLogits_sliceEnds (before : List BatchEntry) {batch : List BatchEntry}
    {logits : BatchEntry → List K}
    (hlogits : ∀ (i : ℕ) entry, batch[i]? = some entry → entry.logits = true →
      api.logitsIth ctx i = some (logits entry)) (missing : String)
    (hbatch : batch = before ++ slices.flatMap sliceBatch)
    (hsome : ∀ slice ∈ slices, slice.tokens ≠ [])
    (hfits : ∀ slice ∈ slices, slice.posStart + slice.tokens.length < 2 ^ 31)
    {expected : SeqSlice → List K} (hexpected : ∀ slice ∈ slices, ∀ token,
      logits ⟨token, (slice.posStart + slice.tokens.length : ℕ) - 1, slice.seqId, true⟩ =
        expected slice) :
    readLogits api ctx missing (sliceEnds before.length slices) = .ok (slices.map expected) := by
  induction slices generalizing before with
  | nil => rfl
  | cons slice rest ih =>
      have hmem := List.mem_cons_self (a := slice) (l := rest)
      have hpos := List.length_pos_iff.mpr (hsome slice hmem)
      obtain ⟨token, hlast⟩ := getLast_sliceBatch (hsome slice hmem) (hfits slice hmem)
      have hentry : batch[before.length + (slice.tokens.length - 1)]? =
          some ⟨token, (slice.posStart + slice.tokens.length : ℕ) - 1, slice.seqId, true⟩ := by
        rw [hbatch, List.flatMap_cons, List.getElem?_append_right (by omega), Nat.add_sub_cancel_left,
          List.getElem?_append_left (by rw [length_sliceBatch]; omega), hlast]
      have hfirst := hlogits _ _ hentry rfl
      have hindex : ((before.length + slice.tokens.length : ℕ) - 1 : ℤ) =
          ((before.length + (slice.tokens.length - 1) : ℕ) : ℤ) := by omega
      have hrest : readLogits api ctx missing
          (sliceEnds (before.length + slice.tokens.length) rest) = .ok (rest.map expected) := by
        have hlater := ih (before ++ sliceBatch slice) (by simp [hbatch])
          (fun s hs => hsome s (List.mem_cons_of_mem _ hs))
          (fun s hs => hfits s (List.mem_cons_of_mem _ hs))
          (fun s hs => hexpected s (List.mem_cons_of_mem _ hs))
        rwa [List.length_append, length_sliceBatch] at hlater
      rw [sliceEnds, readLogits, hindex, hfirst, hrest, hexpected slice hmem token]
      rfl

theorem extended_of_notMem {seqId : ℤ} (hnot : seqId ∉ slices.map SeqSlice.seqId) :
    Scheduler.extended slices kv seqId = kv seqId := by
  induction slices generalizing kv with
  | nil => rfl
  | cons slice rest ih =>
      rw [List.map_cons, List.mem_cons, not_or] at hnot
      rw [Scheduler.extended, List.foldl_cons]
      exact (ih hnot.2).trans (Function.update_of_ne hnot.1 ..)

theorem extended_of_mem (hdistinct : (slices.map SeqSlice.seqId).Nodup) {slice : SeqSlice}
    (hslice : slice ∈ slices) :
    Scheduler.extended slices kv slice.seqId = kv slice.seqId ++ slice.tokens := by
  induction slices generalizing kv with
  | nil => cases hslice
  | cons first rest ih =>
      rw [List.map_cons, List.nodup_cons] at hdistinct
      rw [Scheduler.extended, List.foldl_cons]
      rcases List.mem_cons.mp hslice with rfl | hlater
      · refine (extended_of_notMem hdistinct.1).trans ?_
        rw [Function.update_self]
      · have hne : slice.seqId ≠ first.seqId := fun heq =>
          hdistinct.1 (heq ▸ List.mem_map_of_mem hlater)
        refine (ih hdistinct.2 hlater).trans ?_
        rw [Function.update_of_ne hne]

theorem total_pos (hcontinues : Continues kv slices) (hslices : slices ≠ []) :
    (slices.map fun slice => slice.tokens.length).sum ≠ 0 := by
  obtain ⟨slice, rest, rfl⟩ := List.exists_cons_of_ne_nil hslices
  have hpos := List.length_pos_iff.mpr (hcontinues.some slice (List.mem_cons_self ..))
  rw [List.map_cons, List.sum_cons]
  omega

/-- A batch that llama.cpp has processed: every slice gets the logits of its sequence. -/
theorem decodeSeqs_ok (hdoc : api.Documented cells attend) (hmirrors : Mirrors cells ctx kv)
    (hcontinues : Continues kv slices) (hslices : slices ≠ [])
    (hdecode : api.decode ctx (slices.flatMap sliceBatch) = (0, ctx')) :
    decodeSeqs api ctx slices =
        (.ok (slices.map fun slice =>
          attend (Scheduler.extended slices kv slice.seqId).zipIdx), ctx') ∧
      Mirrors cells ctx' (Scheduler.extended slices kv) := by
  have hcells : ∀ seqId, cells ctx' seqId =
      (kv seqId).zipIdx ++ cellsOf (slices.flatMap sliceBatch) seqId := fun seqId => by
    rw [hdoc.decode_appends hdecode, (hmirrors seqId (Set.notMem_empty _)).1]
  have hfits : ∀ slice ∈ slices, slice.posStart + slice.tokens.length < 2 ^ 31 := by
    intro slice hslice
    have hown := length_le_cellsOf hslice
    have hpos := List.length_pos_iff.mpr (hcontinues.some slice hslice)
    have hroom := hdoc.decode_fits hdecode slice.seqId (List.ne_nil_of_length_pos (by omega))
    rw [hcells, List.length_append, List.length_zipIdx] at hroom
    have hlimit := hdoc.contextLength_lt
    rw [hcontinues.start slice hslice]
    omega
  have hafter : ∀ seqId, cells ctx' seqId = (Scheduler.extended slices kv seqId).zipIdx :=
    fun seqId => by rw [hcells, zipIdx_extended hcontinues hfits]
  refine ⟨?_, fun seqId _ => ⟨hafter seqId, ?_⟩⟩
  · have hread : readLogits api ctx' "no logits at multi-seq batch position " (sliceEnds 0 slices) =
        .ok (slices.map fun slice =>
          attend (Scheduler.extended slices kv slice.seqId).zipIdx) := by
      refine readLogits_sliceEnds [] (hdoc.decode_logits hdecode) _ rfl
        hcontinues.some hfits fun slice hslice token => ?_
      -- The last position of the slice is the last one of its sequence.
      have hlength : (Scheduler.extended slices kv slice.seqId).length =
          slice.posStart + slice.tokens.length := by
        rw [extended_of_mem hcontinues.distinct hslice, List.length_append,
          hcontinues.start slice hslice]
      have hall : ∀ cell ∈ (Scheduler.extended slices kv slice.seqId).zipIdx,
          (cell.2 : ℤ) ≤ (slice.posStart + slice.tokens.length : ℕ) - 1 := by
        intro cell hcell
        have hlt := (List.mem_zipIdx hcell).2.1
        omega
      dsimp only
      rw [hafter, List.filter_eq_self.mpr (by simpa using hall)]
    rw [decodeSeqs, if_neg (total_pos hcontinues hslices), hdecode]
    dsimp only
    rw [if_neg (by simp), hread]
  · by_cases hseq : cellsOf (slices.flatMap sliceBatch) seqId = []
    · have hsame : (Scheduler.extended slices kv seqId).zipIdx = (kv seqId).zipIdx := by
        rw [← hafter, hcells, hseq, List.append_nil]
      have hlength := congrArg List.length hsame
      rw [List.length_zipIdx, List.length_zipIdx] at hlength
      rw [hlength]
      exact (hmirrors seqId (Set.notMem_empty _)).2
    · have hroom := hdoc.decode_fits hdecode seqId hseq
      rw [hafter, List.length_zipIdx] at hroom
      exact hroom.trans_lt hdoc.contextLength_lt

/-- A batch that llama.cpp has not processed: other sequences are as they were. -/
theorem decodeSeqs_error (hdoc : api.Documented cells attend) (hmirrors : Mirrors cells ctx kv)
    (hfailed : (api.decode ctx (slices.flatMap sliceBatch)).1 ≠ 0) :
    (∃ what, (decodeSeqs api ctx slices).1 = .error (.modelError what)) ∧
      MirrorsOff cells {seqId | seqId ∈ slices.map SeqSlice.seqId} (decodeSeqs api ctx slices).2
        kv := by
  rw [decodeSeqs]
  by_cases htotal : (slices.map fun slice => slice.tokens.length).sum = 0
  · rw [if_pos htotal]
    exact ⟨⟨_, rfl⟩, fun seqId _ => hmirrors seqId (Set.notMem_empty _)⟩
  · rw [if_neg htotal]
    cases hdecode : api.decode ctx (slices.flatMap sliceBatch) with
    | mk status ctx' =>
        rw [hdecode] at hfailed
        dsimp only
        rw [if_pos hfailed]
        refine ⟨⟨_, rfl⟩, fun seqId hseq => ?_⟩
        have hbatch : seqId ∉ (slices.flatMap sliceBatch).map BatchEntry.seqId := by
          intro hmem
          obtain ⟨entry, hentry, rfl⟩ := List.mem_map.mp hmem
          obtain ⟨slice, hslice, hin⟩ := List.mem_flatMap.mp hentry
          exact hseq (List.mem_map.mpr ⟨slice, hslice, (seqId_of_mem_sliceBatch hin).symm⟩)
        show cells ctx' seqId = _ ∧ _
        rw [hdoc.decode_frame hdecode seqId hbatch]
        exact hmirrors seqId (Set.notMem_empty _)

/-! ## A scheduler and its context -/

/-- A scheduler over llama.cpp; `state.kv` is the model of what `ctx` holds. -/
structure Deployment (σ K : Type*) where
  state : SchedulerState K
  ctx : σ

namespace Deployment

variable [Field K] [LinearOrder K] (scheduler : Scheduler K) (api : LlamaApi σ K)

/-- The result of `decode_seqs`, by sequence: the slices are those of the active requests. -/
def decodingOf (slices : List SeqSlice) : Except Fault (List (List K)) → Decoding K
  | .ok logits => .returned fun seqId =>
      (((slices.map SeqSlice.seqId).zip logits).lookup seqId).getD []
  | .error fault => .threw fault fun _ => []

/-- The context when `step` has admitted what fits. -/
def admittedCtx (d : Deployment σ K) : σ :=
  Runs.run (applyCall api) d.ctx (scheduler.admitCalls d.state.pending d.state)

/-- What `decode_seqs` returns in the next `step`. -/
def decoded (d : Deployment σ K) : Except Fault (List (List K)) :=
  (decodeSeqs api (admittedCtx scheduler api d)
    ((scheduler.admitPending d.state).active.map Scheduler.sliceOf)).1

/-- `step`. -/
def step (d : Deployment σ K) : Deployment σ K :=
  let answer := decodingOf ((scheduler.admitPending d.state).active.map Scheduler.sliceOf)
    (decoded scheduler api d)
  { state := (scheduler.stepWith answer d.state).1
    ctx := Runs.run (applyCall api) d.ctx (scheduler.stepCalls answer d.state) }

/-- A call made on the scheduler. -/
def apply (d : Deployment σ K) : Scheduler.Event K → Deployment σ K
  | .submit prompt gen onToken =>
      { d with state := scheduler.apply d.state (.submit prompt gen onToken) }
  | .step => step scheduler api d

/-- What the batch of a call throws, if there is one. -/
def thrown (d : Deployment σ K) : Scheduler.Event K → Option Fault
  | .submit _ _ _ => none
  | .step =>
      if (scheduler.admitPending d.state).active = [] then none
      else
        match decoded scheduler api d with
        | .ok _ => none
        | .error fault => some fault

/-- The calls, each with what its batch throws. -/
def faults (d : Deployment σ K) : List (Scheduler.Event K) → List (Scheduler.Event K × Option Fault)
  | [] => []
  | event :: events =>
      (event, thrown scheduler api d event) :: faults (apply scheduler api d event) events

/-! ### The same over the model backend -/

/-- The same call with the model backend, whose batch throws what is given or returns the logits
of its sequences. -/
def modelMove (s : SchedulerState K) : Scheduler.Event K × Option Fault → Scheduler.Move K
  | (.submit prompt gen onToken, _) => .submit prompt gen onToken
  | (.step, some fault) => .step (.threw fault fun _ => [])
  | (.step, none) =>
      let admitted := scheduler.admitPending s
      .step (.returned fun seqId => scheduler.backend.logits
        (Scheduler.extended (admitted.active.map Scheduler.sliceOf) admitted.kv seqId))

/-- A run of the scheduler over its model backend, with the batches that throw. -/
def modelRun (s : SchedulerState K) (events : List (Scheduler.Event K × Option Fault)) :
    SchedulerState K :=
  Runs.run (fun s event => scheduler.move s (modelMove scheduler s event)) s events

/-! ### Call by call -/

variable {scheduler} {api} {d : Deployment σ K}

omit [Field K] [LinearOrder K] in
theorem mirrors_copies (hdoc : api.Documented cells attend) {requests : List (Request K)}
    {calls : List (SeqCall K)} (hcopies : ∀ call ∈ calls, ∃ src dst n, call = .copySeq src dst n)
    (hmirrors : Mirrors cells ctx kv)
    (hmeets : Runs.Throughout Scheduler.effect (Scheduler.Meets requests) kv calls) :
    Mirrors cells (Runs.run (applyCall api) ctx calls) (Runs.run Scheduler.effect kv calls) := by
  induction calls generalizing ctx kv with
  | nil => exact hmirrors
  | cons call calls ih =>
      obtain ⟨src, dst, n, rfl⟩ := hcopies call (List.mem_cons_self ..)
      obtain ⟨⟨hdst, hn, -⟩, hrest⟩ := hmeets
      exact ih (fun later hlater => hcopies later (List.mem_cons_of_mem _ hlater))
        (hmirrors.copySeq hdoc hdst hn) hrest

theorem admitCalls_copies (pending : List (Request K)) (s : SchedulerState K) :
    ∀ call ∈ scheduler.admitCalls pending s, ∃ src dst n, call = .copySeq src dst n := by
  induction pending generalizing s with
  | nil => simp [Scheduler.admitCalls]
  | cons r rest ih =>
      rcases Scheduler.admit_cases scheduler r rest s with
        ⟨-, hcalls⟩ | ⟨donor, -, -, -, hcalls⟩
      · simp [hcalls]
      · intro call hcall
        rw [hcalls, List.mem_append] at hcall
        rcases hcall with hfirst | hlater
        · rcases donor with - | donor
          · simp [Scheduler.activateCalls] at hfirst
          · exact ⟨_, _, _, List.mem_singleton.mp hfirst⟩
        · exact ih _ call hlater

omit [Field K] [LinearOrder K] in
/-- Clearing the sequences of the requests that leave. -/
theorem mirrors_finishes (hdoc : api.Documented cells attend) (off : Set ℤ)
    (leaving : List (Request K × Option Fault)) (hmirrors : MirrorsOff cells off ctx kv)
    (hoff : ∀ seqId ∈ off, 0 ≤ seqId ∧ seqId ∈ leaving.map fun p => p.1.seqId) :
    Mirrors cells
      (Runs.run (applyCall api) ctx (leaving.flatMap fun p => Scheduler.finishCalls p.1))
      (Runs.run Scheduler.effect kv (leaving.flatMap fun p => Scheduler.finishCalls p.1)) := by
  induction leaving generalizing ctx kv off with
  | nil =>
      have hempty : off = ∅ := Set.eq_empty_of_forall_notMem fun seqId hseq => by
        simpa using (hoff seqId hseq).2
      rw [hempty] at hmirrors
      exact hmirrors
  | cons p rest ih =>
      rw [List.flatMap_cons, Runs.run_append, Runs.run_append]
      by_cases hseat : 0 ≤ p.1.seqId
      · have hfinish : (Scheduler.finishCalls p.1 : List (SeqCall K)) = [.clearSeq p.1.seqId] :=
          if_pos hseat
        rw [hfinish]
        refine ih _ (hmirrors.clearSeq hdoc hseat) fun seqId hseq => ?_
        obtain ⟨hpos, hmem⟩ := hoff seqId hseq.1
        exact ⟨hpos, (List.mem_cons.mp hmem).resolve_left hseq.2⟩
      · have hfinish : (Scheduler.finishCalls p.1 : List (SeqCall K)) = [] := if_neg hseat
        rw [hfinish]
        refine ih off hmirrors fun seqId hseq => ?_
        obtain ⟨hpos, hmem⟩ := hoff seqId hseq
        refine ⟨hpos, (List.mem_cons.mp hmem).resolve_left ?_⟩
        rintro rfl
        exact hseat hpos

omit [Field K] [LinearOrder K] in
/-- Each slice finds its own logits. -/
theorem lookup_slices (logits : ℤ → List K) {seqId : ℤ}
    (hseq : seqId ∈ slices.map SeqSlice.seqId) :
    ((slices.map SeqSlice.seqId).zip (slices.map fun slice => logits slice.seqId)).lookup seqId =
      some (logits seqId) := by
  induction slices with
  | nil => cases hseq
  | cons slice rest ih =>
      rw [List.map_cons, List.map_cons, List.zip_cons_cons, List.lookup_cons]
      by_cases hfirst : seqId = slice.seqId
      · subst hfirst
        simp
      · rw [List.map_cons, List.mem_cons] at hseq
        have hne : (seqId == slice.seqId) = false := by simpa using hfirst
        rw [hne]
        exact ih (hseq.resolve_left hfirst)

/-- Only the logits of the active sequences matter. -/
theorem serveWith_congr {s : SchedulerState K} {f g : ℤ → List K}
    (hsame : ∀ seqId ∈ (s.active.map Scheduler.sliceOf).map SeqSlice.seqId, f seqId = g seqId) :
    scheduler.serveWith (.returned f) s = scheduler.serveWith (.returned g) s := by
  have hlogits : (s.active.map Scheduler.sliceOf).map (fun slice => f slice.seqId) =
      (s.active.map Scheduler.sliceOf).map fun slice => g slice.seqId :=
    List.map_congr_left fun slice hslice => hsame _ (List.mem_map_of_mem hslice)
  simp only [Scheduler.serveWith, hlogits]

/-- The slices of the next batch continue the sequences of the cache. -/
theorem continues_slices {s : SchedulerState K} (hcoherent : Scheduler.Coherent scheduler s) :
    Continues s.kv (s.active.map Scheduler.sliceOf) := by
  have hmeets := hcoherent.meets_decodeSeqs [] (.returned fun _ => [])
  refine ⟨fun slice hslice => (hmeets slice hslice).1, fun slice hslice => (hmeets slice hslice).2,
    ?_⟩
  have hseqs : (s.active.map Scheduler.sliceOf).map SeqSlice.seqId =
      s.active.map Request.seqId := by
    rw [List.map_map]
    exact List.map_congr_left fun r _ => Scheduler.sliceOf_seqId r
  rw [hseqs]
  exact hcoherent.distinct

/-- The batch of a step: the model's answer or an exception, and afterwards the context holds what
the cache does, but for the sequences of a failed batch. -/
theorem batch_spec (hdoc : api.Documented cells attend)
    (hmodel : ∀ tokens, attend tokens.zipIdx = scheduler.backend.logits tokens)
    {s : SchedulerState K} (hcoherent : Scheduler.Coherent scheduler s) (hactive : s.active ≠ [])
    (hmirrors : Mirrors cells ctx s.kv) :
    let slices := s.active.map Scheduler.sliceOf
    let result := decodeSeqs api ctx slices
    (∃ logits, result.1 = .ok logits ∧
        scheduler.serveWith (decodingOf slices result.1) s =
          scheduler.serveWith (.returned fun seqId =>
            scheduler.backend.logits (Scheduler.extended slices s.kv seqId)) s ∧
        Mirrors cells result.2 (Scheduler.extended slices s.kv)) ∨
      ∃ fault, result.1 = .error fault ∧
        MirrorsOff cells {seqId | seqId ∈ slices.map SeqSlice.seqId} result.2 s.kv := by
  intro slices result
  have hcontinues : Continues s.kv slices := continues_slices hcoherent
  have hslices : slices ≠ [] := by simpa [slices] using hactive
  by_cases hstatus : (api.decode ctx (slices.flatMap sliceBatch)).1 = 0
  · obtain ⟨hresult, hafter⟩ := decodeSeqs_ok hdoc hmirrors hcontinues hslices
      (Prod.ext hstatus rfl : api.decode ctx (slices.flatMap sliceBatch) = (0, _))
    have hok : result.1 = .ok (slices.map fun slice => scheduler.backend.logits
        (Scheduler.extended slices s.kv slice.seqId)) := by
      simp only [result, hresult, hmodel]
    refine .inl ⟨_, hok, ?_, by rw [show result = _ from hresult]; exact hafter⟩
    rw [hok]
    refine serveWith_congr fun seqId hseq => ?_
    rw [lookup_slices (fun seqId => scheduler.backend.logits
      (Scheduler.extended slices s.kv seqId)) hseq, Option.getD_some]
  · obtain ⟨⟨what, herror⟩, hafter⟩ := decodeSeqs_error hdoc hmirrors hstatus
    exact .inr ⟨_, herror, hafter⟩

/-- Everybody leaves a batch that has failed. -/
theorem leaving_threw (fault : Fault) (left : KvCache) (active : List (Request K)) :
    active.filterMap (fun r => (scheduler.turnWith (.threw fault left) r).getRight?) =
      active.map fun r => (r, some fault) := by
  rw [← List.filterMap_eq_map]
  rfl

/-- A step does over llama.cpp what it does over the model backend. -/
theorem step_spec (hdoc : api.Documented cells attend)
    (hmodel : ∀ tokens, attend tokens.zipIdx = scheduler.backend.logits tokens)
    (hrested : Scheduler.Rested scheduler d.state) (hmirrors : Mirrors cells d.ctx d.state.kv) :
    (step scheduler api d).state =
        scheduler.move d.state (modelMove scheduler d.state (.step, thrown scheduler api d .step)) ∧
      Mirrors cells (step scheduler api d).ctx (step scheduler api d).state.kv := by
  have hadmitted := (Scheduler.admit_spec hrested.coherent).1
  -- Admission copies prompts.
  have hkv : Runs.run Scheduler.effect d.state.kv
      (scheduler.admitCalls d.state.pending d.state) = (scheduler.admitPending d.state).kv :=
    Scheduler.run_admitCalls scheduler d.state.pending d.state
  have hcopied : Mirrors cells (admittedCtx scheduler api d) (scheduler.admitPending d.state).kv := by
    have hcopies := mirrors_copies hdoc (admitCalls_copies d.state.pending d.state) hmirrors
      (Scheduler.throughout_admitCalls hrested.coherent)
    rwa [hkv] at hcopies
  by_cases hactive : (scheduler.admitPending d.state).active = []
  · have hidle : ∀ answer, (scheduler.stepWith answer d.state).1 =
        scheduler.admitPending d.state := fun answer => by
      rw [Scheduler.stepWith, if_pos hactive]
    have hcalls : ∀ answer, scheduler.stepCalls answer d.state =
        scheduler.admitCalls d.state.pending d.state := fun answer => by
      rw [Scheduler.stepCalls, if_pos hactive, List.append_nil]
    rw [thrown, if_pos hactive, modelMove, Scheduler.move, step]
    simp only [hidle, hcalls]
    exact ⟨trivial, hcopied⟩
  -- The batch is decoded, and whoever leaves is cleared.
  have hserve : ∀ answer, (scheduler.stepWith answer d.state).1 =
      scheduler.serveWith answer (scheduler.admitPending d.state) := fun answer => by
    rw [Scheduler.stepWith, if_neg hactive]
  have hcalls : ∀ answer, Runs.run (applyCall api) d.ctx (scheduler.stepCalls answer d.state) =
      Runs.run (applyCall api) (admittedCtx scheduler api d)
        (scheduler.serveCalls answer (scheduler.admitPending d.state)) := fun answer => by
    rw [Scheduler.stepCalls, if_neg hactive, Runs.run_append]
    rfl
  rw [thrown, if_neg hactive, step]
  dsimp only
  simp only [hserve, hcalls]
  rcases batch_spec hdoc hmodel hadmitted hactive hcopied with
    ⟨logits, hresult, hsame, hafter⟩ | ⟨fault, hresult, hafter⟩
  · have hdecoded : decoded scheduler api d = .ok logits := hresult
    rw [hresult] at hsame
    rw [hdecoded, modelMove, Scheduler.move, hserve]
    refine ⟨hsame, ?_⟩
    rw [← Scheduler.run_serveCalls, Scheduler.serveCalls, Runs.run_cons, Runs.run_cons]
    exact mirrors_finishes hdoc ∅ _ hafter fun seqId hseq => absurd hseq (Set.notMem_empty _)
  · have hdecoded : decoded scheduler api d = .error fault := hresult
    rw [hdecoded, modelMove, Scheduler.move, hserve]
    refine ⟨rfl, ?_⟩
    rw [← Scheduler.run_serveCalls, Scheduler.serveCalls, Runs.run_cons, Runs.run_cons]
    refine mirrors_finishes hdoc {seqId | seqId ∈
      ((scheduler.admitPending d.state).active.map Scheduler.sliceOf).map SeqSlice.seqId}
        _ (fun seqId hseq => ?_) fun seqId hseq => ?_
    · -- What the failed batch leaves behind concerns its own sequences.
      have hframe : Scheduler.effect (scheduler.admitPending d.state).kv
          (.decodeSeqs ((scheduler.admitPending d.state).active.map Scheduler.sliceOf)
            (decodingOf ((scheduler.admitPending d.state).active.map Scheduler.sliceOf)
              (.error fault) : Decoding K)) seqId = (scheduler.admitPending d.state).kv seqId :=
        if_neg hseq
      rw [hframe]
      exact hafter seqId hseq
    · rw [decodingOf, leaving_threw, List.map_map]
      obtain ⟨slice, hslice, rfl⟩ := List.mem_map.mp hseq
      obtain ⟨r, hr, rfl⟩ := List.mem_map.mp hslice
      obtain ⟨slot, hslot, -⟩ := (hadmitted.seated r hr).slot
      rw [Scheduler.sliceOf_seqId]
      exact ⟨by omega, List.mem_map.mpr ⟨r, hr, rfl⟩⟩

/-- Any call. -/
theorem apply_spec (hdoc : api.Documented cells attend)
    (hmodel : ∀ tokens, attend tokens.zipIdx = scheduler.backend.logits tokens)
    (hrested : Scheduler.Rested scheduler d.state) (hmirrors : Mirrors cells d.ctx d.state.kv)
    (event : Scheduler.Event K) :
    (apply scheduler api d event).state =
        scheduler.move d.state (modelMove scheduler d.state (event, thrown scheduler api d event)) ∧
      Mirrors cells (apply scheduler api d event).ctx (apply scheduler api d event).state.kv := by
  cases event with
  | step => exact step_spec hdoc hmodel hrested hmirrors
  | submit prompt gen onToken =>
      refine ⟨rfl, ?_⟩
      have hkv : (scheduler.apply d.state (.submit prompt gen onToken)).kv = d.state.kv := by
        rcases Scheduler.submit_cases scheduler d.state prompt gen onToken with
          ⟨fault, hsubmit⟩ | ⟨callback, s', -, hsubmit, -, -, rfl⟩
        · rw [Scheduler.apply, hsubmit]
        · rw [Scheduler.apply, hsubmit]
      rw [apply]
      dsimp only
      rw [hkv]
      exact hmirrors

/-- Without exceptions, the model backend is that of the scheduler. -/
theorem move_modelMove_none (hnever : ∀ kv slices, scheduler.backend.refuses kv slices = none)
    {s : SchedulerState K} (hrested : Scheduler.Rested scheduler s) (event : Scheduler.Event K) :
    scheduler.move s (modelMove scheduler s (event, none)) = scheduler.apply s event := by
  cases event with
  | submit prompt gen onToken => rfl
  | step =>
      have hanswer : scheduler.answer (scheduler.admitPending s) =
          .returned fun seqId => scheduler.backend.logits
            (Scheduler.extended ((scheduler.admitPending s).active.map Scheduler.sliceOf)
              (scheduler.admitPending s).kv seqId) := by
        rw [Scheduler.answer, hnever]
      rw [Scheduler.apply, Scheduler.step_eq hrested.coherent, hanswer]
      rfl

/-- The scheduler over llama.cpp is the scheduler over the model backend, a batch of which may
throw; and after every call each sequence of the context holds what the model's cache does. -/
theorem deployment_serves (hdoc : api.Documented cells attend)
    (hmodel : ∀ tokens, attend tokens.zipIdx = scheduler.backend.logits tokens) {ctx : σ}
    (hfresh : ∀ seqId, cells ctx seqId = []) {s₀ : SchedulerState K}
    (hconstruct : scheduler.construct = .ok s₀) (events : List (Scheduler.Event K)) :
    let d := Runs.run (apply scheduler api) ⟨s₀, ctx⟩ events
    let outcomes := faults scheduler api ⟨s₀, ctx⟩ events
    d.state = modelRun scheduler s₀ outcomes ∧
      (∀ seqId, cells d.ctx seqId = (d.state.kv seqId).zipIdx) ∧
      ((∀ kv slices, scheduler.backend.refuses kv slices = none) →
        (∀ p ∈ outcomes, p.2 = none) → d.state = scheduler.run s₀ events) := by
  obtain ⟨-, rfl⟩ := Scheduler.construct_eq_ok.mp hconstruct
  have hstart : Mirrors cells ctx (scheduler.initial).kv := fun seqId _ => by
    rw [hfresh seqId]
    exact ⟨rfl, by simp [Scheduler.initial]⟩
  have hrun : ∀ d : Deployment σ K, Scheduler.Rested scheduler d.state →
      Mirrors cells d.ctx d.state.kv →
      (Runs.run (apply scheduler api) d events).state =
          modelRun scheduler d.state (faults scheduler api d events) ∧
        Mirrors cells (Runs.run (apply scheduler api) d events).ctx
          (Runs.run (apply scheduler api) d events).state.kv ∧
        ((∀ kv slices, scheduler.backend.refuses kv slices = none) →
          (∀ p ∈ faults scheduler api d events, p.2 = none) →
            (Runs.run (apply scheduler api) d events).state = scheduler.run d.state events) := by
    induction events with
    | nil => exact fun d _ hmirrors => ⟨rfl, hmirrors, fun _ _ => rfl⟩
    | cons event events ih =>
        intro d hrested hmirrors
        obtain ⟨hstate, hafter⟩ := apply_spec hdoc hmodel hrested hmirrors event
        have hnext : Scheduler.Rested scheduler (apply scheduler api d event).state := by
          rw [hstate]
          exact hrested.move _
        obtain ⟨hsame, hmirror, hclean⟩ := ih (apply scheduler api d event) hnext hafter
        refine ⟨?_, hmirror, fun hnever hnone => ?_⟩
        · rw [Runs.run_cons, hsame, faults, modelRun, modelRun, Runs.run_cons, ← hstate]
        · obtain ⟨hfirst, hrest⟩ := List.forall_mem_cons.mp hnone
          dsimp only at hfirst
          rw [hfirst, move_modelMove_none hnever hrested] at hstate
          rw [Runs.run_cons, hclean hnever hrest, hstate]
          rfl
  obtain ⟨hstate, hmirror, hclean⟩ := hrun ⟨scheduler.initial, ctx⟩ Scheduler.rested_initial hstart
  exact ⟨hstate, fun seqId => (hmirror seqId (Set.notMem_empty _)).1, hclean⟩

/-- Two requests with one prompt, over a library that keeps its cells in a list. -/
theorem deployment_serves_clone :
    let scheduler : Scheduler ℚ :=
      ⟨.rational, Scheduler.twoTokenBackend 8 (by decide) fun _ _ => none, 2⟩
    let api : LlamaApi (ListContext ℚ) ℚ := listLlama (fun _ => [1, 0]) 8
    let request : Scheduler.Event ℚ :=
      .submit [0, 0] (Scheduler.greedyConfig 3) (some fun _ => .keepGoing)
    let events := [request, .step, request, .step, .step, .step]
    let d := Runs.run (apply scheduler api) ⟨scheduler.initial, {}⟩ events
    let outcomes := faults scheduler api ⟨scheduler.initial, {}⟩ events
    d.state = modelRun scheduler scheduler.initial outcomes ∧
      (∀ seqId, d.ctx.cells seqId = (d.state.kv seqId).zipIdx) ∧
      ((∀ kv slices, scheduler.backend.refuses kv slices = none) →
        (∀ p ∈ outcomes, p.2 = none) → d.state = scheduler.run scheduler.initial events) :=
  deployment_serves (documented_listLlama _ (by decide)) (fun _ => rfl) (fun _ => rfl) rfl _

end Deployment

end RealBackend

end Reame.Core
