import Reame.Core.StatefulBackend

/-!
# What llama.cpp promises

`RealLlamaBackend` is a wrapper around llama.cpp, a library whose source is not part of the
repository.  `LlamaApi` has the functions that the wrapper calls on its context, and
`LlamaApi.Documented` what the documentation of the library promises of them, in terms of the
cells that a context holds of each sequence:

* a decoded batch is added to its sequences, and the logits of an entry are those of its
  sequence up to the position of the entry;
* a batch that finds no room, or is invalid, leaves the memory as it was, while one that fails
  otherwise may leave anything in the sequences it names;
* a range of positions is removed entirely or, by a model that cannot do so, not at all.

`K` is what the logits are made of.  Rounding is not modelled: how a sequence was cut into
batches makes no difference to its logits.
-/

namespace Reame.Core

/-- An entry of a `llama_batch`; `logits` asks for the logits of its position. -/
structure BatchEntry where
  token : TokenId
  pos : ℤ
  seqId : ℤ
  logits : Bool
deriving DecidableEq, Repr

/-- The cell that an entry becomes. -/
def BatchEntry.cell (entry : BatchEntry) : Cell := (entry.token, entry.pos.toNat)

/-- The cells of a batch that belong to a sequence. -/
def cellsOf (batch : List BatchEntry) (seqId : ℤ) : List Cell :=
  (batch.filter (·.seqId = seqId)).map BatchEntry.cell

/-- The functions of llama.cpp that are called on a context; `σ` are its states. -/
structure LlamaApi (σ K : Type*) where
  /-- `llama_n_ctx`. -/
  contextLength : ℕ
  /-- `llama_decode`, with its status. -/
  decode : σ → List BatchEntry → ℤ × σ
  /-- `llama_get_logits_ith`. -/
  logitsIth : σ → ℤ → Option (List K)
  /-- `llama_memory_seq_rm`, for a sequence and the positions from `p0` to below `p1`. -/
  memorySeqRm : σ → ℤ → ℤ → ℤ → Bool × σ
  /-- `llama_memory_seq_cp`, for the same. -/
  memorySeqCp : σ → ℤ → ℤ → ℤ → ℤ → σ
  /-- `llama_memory_clear`. -/
  memoryClear : σ → σ
  /-- The bytes that `llama_state_get_data` writes. -/
  stateGetData : σ → Bytes
  /-- `llama_state_set_data`, with the number of bytes it has read. -/
  stateSetData : σ → Bytes → ℕ × σ

/-- A position lies between the bounds of `llama_memory_seq_rm`; negative ones are open. -/
def InRange (p0 p1 : ℤ) (cell : Cell) : Prop := p0 ≤ cell.2 ∧ (p1 < 0 ∨ (cell.2 : ℤ) < p1)

instance (p0 p1 : ℤ) (cell : Cell) : Decidable (InRange p0 p1 cell) :=
  inferInstanceAs (Decidable (_ ∧ _))

/-- What the documentation of llama.cpp says, where a context holds `cells ctx seqId` of a
sequence and the model makes `attend` of the cells up to a position. -/
structure LlamaApi.Documented {σ K : Type*} (api : LlamaApi σ K) (cells : σ → ℤ → List Cell)
    (attend : List Cell → List K) : Prop where
  /-- Positions are `std::int32_t`. -/
  contextLength_lt : api.contextLength < 2 ^ 31
  /-- Status `0`: the batch has been processed. -/
  decode_appends : ∀ {ctx ctx' batch}, api.decode ctx batch = (0, ctx') →
    ∀ seqId, cells ctx' seqId = cells ctx seqId ++ cellsOf batch seqId
  /-- A batch is processed only if there is room for it. -/
  decode_fits : ∀ {ctx ctx' batch}, api.decode ctx batch = (0, ctx') →
    ∀ seqId, cellsOf batch seqId ≠ [] → (cells ctx' seqId).length ≤ api.contextLength
  /-- The logits of a position are there if they were asked for. -/
  decode_logits : ∀ {ctx ctx' batch}, api.decode ctx batch = (0, ctx') →
    ∀ (i : ℕ) (entry : BatchEntry), batch[i]? = some entry → entry.logits = true →
      api.logitsIth ctx' i =
        some (attend ((cells ctx' entry.seqId).filter fun cell => (cell.2 : ℤ) ≤ entry.pos))
  /-- Status `1`, no room for the batch, and `-1`, an invalid one. -/
  decode_restores : ∀ {ctx ctx' batch status}, api.decode ctx batch = (status, ctx') →
    status = 1 ∨ status = -1 → cells ctx' = cells ctx
  /-- Whatever the status, other sequences are left alone. -/
  decode_frame : ∀ {ctx ctx' batch status}, api.decode ctx batch = (status, ctx') →
    ∀ seqId, seqId ∉ batch.map BatchEntry.seqId → cells ctx' seqId = cells ctx seqId
  seqRm_true : ∀ {ctx ctx' seqId p0 p1}, 0 ≤ seqId → api.memorySeqRm ctx seqId p0 p1 = (true, ctx') →
    ∀ other, cells ctx' other =
      if other = seqId then (cells ctx seqId).filter (¬ InRange p0 p1 ·) else cells ctx other
  seqRm_false : ∀ {ctx ctx' seqId p0 p1}, api.memorySeqRm ctx seqId p0 p1 = (false, ctx') →
    cells ctx' = cells ctx
  /-- A whole sequence can always be removed. -/
  seqRm_whole : ∀ ctx seqId, (api.memorySeqRm ctx seqId (-1) (-1)).1 = true
  /-- Copying into an empty sequence. -/
  seqCp : ∀ {ctx src dst p0 p1}, cells ctx dst = [] → ∀ other,
    cells (api.memorySeqCp ctx src dst p0 p1) other =
      if other = dst then (cells ctx src).filter (InRange p0 p1 ·) else cells ctx other
  clear : ∀ ctx seqId, cells (api.memoryClear ctx) seqId = []
  /-- A state that has been read is the one that was written. -/
  state_restores : ∀ {ctx ctx' saved n}, api.stateSetData ctx (api.stateGetData saved) = (n, ctx') →
    n ≠ 0 → cells ctx' = cells saved

/-! ## Positions of a sequence -/

/-- The cells of a text up to a position are those of its first tokens. -/
theorem filter_zipIdx (tokens : List TokenId) (start n : ℕ) :
    (tokens.zipIdx start).filter (fun cell => cell.2 < start + n) = (tokens.take n).zipIdx start := by
  induction tokens generalizing start n with
  | nil => simp
  | cons token rest ih =>
      rw [List.zipIdx_cons]
      rcases n with _ | n
      · -- No later position is smaller.
        have hnone : ∀ cell ∈ rest.zipIdx (start + 1), ¬ cell.2 < start + 0 := by
          intro cell hcell
          have hpos := (List.mem_zipIdx hcell).1
          omega
        rw [List.filter_cons_of_neg (by simp), List.filter_eq_nil_iff.mpr (by simpa using hnone)]
        rfl
      · have hshift : ∀ cell : Cell, cell.2 < start + (n + 1) ↔ cell.2 < start + 1 + n := by
          intro cell
          omega
        rw [List.filter_cons_of_pos (by simp), List.take_succ_cons, List.zipIdx_cons]
        simp only [hshift, ih]

/-- The cells of a text as `llama_memory_seq_rm` and `llama_memory_seq_cp` sort them. -/
theorem filter_inRange (tokens : List TokenId) (n : ℕ) :
    tokens.zipIdx.filter (InRange 0 n ·) = (tokens.take n).zipIdx := by
  have hsame : ∀ cell : Cell, InRange 0 n cell ↔ cell.2 < 0 + n := by
    intro cell
    unfold InRange
    omega
  simp only [hsame]
  exact filter_zipIdx tokens 0 n

theorem filter_not_inRange (tokens : List TokenId) (n : ℕ) :
    tokens.zipIdx.filter (¬ InRange n (-1) ·) = (tokens.take n).zipIdx := by
  have hsame : ∀ cell : Cell, ¬ InRange n (-1) cell ↔ cell.2 < 0 + n := by
    intro cell
    unfold InRange
    omega
  simp only [hsame]
  exact filter_zipIdx tokens 0 n

theorem filter_not_all (held : List Cell) : held.filter (¬ InRange (-1) (-1) ·) = [] := by
  have hall : ∀ cell : Cell, InRange (-1) (-1) cell := by
    intro cell
    unfold InRange
    omega
  simp [hall]

/-! ## A library that keeps a list -/

/-- A context that is a list of cells, each with its sequence, and the logits of the last batch. -/
structure ListContext (K : Type*) where
  entries : List (ℤ × Cell) := []
  outputs : List (Option (List K)) := []

/-- The cells of a sequence. -/
def ListContext.cells {K : Type*} (ctx : ListContext K) (seqId : ℤ) : List Cell :=
  (ctx.entries.filter (·.1 = seqId)).map Prod.snd

/-- The context with a batch. -/
def ListContext.extend {K : Type*} (attend : List Cell → List K) (ctx : ListContext K)
    (batch : List BatchEntry) : ListContext K :=
  let extended : ListContext K :=
    { ctx with entries := ctx.entries ++ batch.map fun entry => (entry.seqId, entry.cell) }
  { extended with
    outputs := batch.map fun entry =>
      if entry.logits then
        some (attend ((extended.cells entry.seqId).filter fun cell => (cell.2 : ℤ) ≤ entry.pos))
      else none }

/-- A library that keeps its cells in a list; a blob is as long as their code. -/
def listLlama {K : Type*} (attend : List Cell → List K) (contextLength : ℕ) :
    LlamaApi (ListContext K) K where
  contextLength
  decode ctx batch :=
    if ctx.entries.length + batch.length ≤ contextLength then (0, ctx.extend attend batch)
    else (1, ctx)
  logitsIth ctx i := if 0 ≤ i then ctx.outputs[i.toNat]?.join else none
  memorySeqRm ctx seqId p0 p1 :=
    (true, { ctx with
      entries := ctx.entries.filter fun entry => ¬ (entry.1 = seqId ∧ InRange p0 p1 entry.2) })
  memorySeqCp ctx src dst p0 p1 :=
    { ctx with
      entries := ctx.entries ++ ((ctx.cells src).filter (InRange p0 p1 ·)).map fun cell => (dst, cell) }
  memoryClear _ := {}
  stateGetData ctx := List.replicate (Encodable.encode ctx.entries + 1) 0
  stateSetData ctx data :=
    match (Encodable.decode (data.length - 1) : Option (List (ℤ × Cell))) with
    | some entries => (data.length, { ctx with entries })
    | none => (0, ctx)

theorem cells_extend {K : Type*} (attend : List Cell → List K) (ctx : ListContext K)
    (batch : List BatchEntry) (seqId : ℤ) :
    (ctx.extend attend batch).cells seqId = ctx.cells seqId ++ cellsOf batch seqId := by
  have hbatch : ((batch.map fun entry => (entry.seqId, entry.cell)).filter (·.1 = seqId)).map
      Prod.snd = cellsOf batch seqId := by
    rw [List.filter_map, List.map_map]
    rfl
  simp only [ListContext.cells, ListContext.extend, List.filter_append, List.map_append, hbatch]

/-- It does what llama.cpp documents. -/
theorem documented_listLlama {K : Type*} (attend : List Cell → List K) {contextLength : ℕ}
    (hlength : contextLength < 2 ^ 31) :
    (listLlama attend contextLength).Documented ListContext.cells attend := by
  have hdecode : ∀ {ctx ctx' : ListContext K} {batch},
      (listLlama attend contextLength).decode ctx batch = (0, ctx') →
        ctx.entries.length + batch.length ≤ contextLength ∧ ctx' = ctx.extend attend batch := by
    intro ctx ctx' batch hstep
    simp only [listLlama] at hstep
    split_ifs at hstep with hroom
    · exact ⟨hroom, (Prod.mk.inj hstep).2.symm⟩
    · simp at hstep
  have hrefused : ∀ {ctx ctx' : ListContext K} {batch status},
      (listLlama attend contextLength).decode ctx batch = (status, ctx') →
        ctx' = ctx ∨ ctx' = ctx.extend attend batch ∧ status = 0 := by
    intro ctx ctx' batch status hstep
    simp only [listLlama] at hstep
    split_ifs at hstep
    · exact .inr ⟨(Prod.mk.inj hstep).2.symm, (Prod.mk.inj hstep).1.symm⟩
    · exact .inl (Prod.mk.inj hstep).2.symm
  constructor
  case contextLength_lt => exact hlength
  case decode_appends =>
    intro ctx ctx' batch hstep seqId
    rw [(hdecode hstep).2, cells_extend]
  case decode_fits =>
    intro ctx ctx' batch hstep seqId _
    obtain ⟨hroom, rfl⟩ := hdecode hstep
    have hentries : (ctx.extend attend batch).entries.length = ctx.entries.length + batch.length := by
      simp [ListContext.extend]
    calc ((ctx.extend attend batch).cells seqId).length
        ≤ (ctx.extend attend batch).entries.length := by
          rw [ListContext.cells, List.length_map]
          exact List.length_filter_le _ _
      _ ≤ contextLength := hentries ▸ hroom
  case decode_logits =>
    intro ctx ctx' batch hstep i entry hentry hflag
    obtain ⟨-, rfl⟩ := hdecode hstep
    simp [listLlama, ListContext.extend, ListContext.cells, hentry, hflag]
  case decode_restores =>
    intro ctx ctx' batch status hstep hstatus
    rcases hrefused hstep with rfl | ⟨-, rfl⟩
    · rfl
    · simp at hstatus
  case decode_frame =>
    intro ctx ctx' batch status hstep seqId hnone
    rcases hrefused hstep with rfl | ⟨rfl, -⟩
    · rfl
    · have hbatch : cellsOf batch seqId = [] := by
        rw [cellsOf, List.map_eq_nil_iff, List.filter_eq_nil_iff]
        intro entry hentry hseq
        exact hnone (List.mem_map.mpr ⟨entry, hentry, of_decide_eq_true hseq⟩)
      rw [cells_extend, hbatch, List.append_nil]
  case seqRm_true =>
    intro ctx ctx' seqId p0 p1 _ hremove other
    obtain rfl := (Prod.mk.inj hremove).2
    simp only [ListContext.cells, List.filter_filter, List.filter_map]
    by_cases hother : other = seqId
    · subst hother
      rw [if_pos rfl]
      congr 1
      refine List.filter_congr fun entry _ => ?_
      by_cases hentry : entry.1 = other <;> simp [hentry]
    · rw [if_neg hother]
      congr 1
      refine List.filter_congr fun entry _ => ?_
      by_cases hentry : entry.1 = other <;> simp [hentry, hother]
  case seqRm_false =>
    intro ctx ctx' seqId p0 p1 hremove
    simp [listLlama] at hremove
  case seqRm_whole => exact fun ctx seqId => rfl
  case seqCp =>
    intro ctx src dst p0 p1 hempty other
    simp only [ListContext.cells, listLlama, List.filter_append, List.map_append]
    by_cases hother : other = dst
    · subst hother
      have hnone : (ctx.entries.filter (·.1 = other)).map Prod.snd = [] := hempty
      rw [if_pos rfl, hnone, List.nil_append, List.filter_map, List.map_map]
      simp [Function.comp_def]
    · rw [if_neg hother, List.filter_map]
      simp [Function.comp_def, Ne.symm hother]
  case clear => exact fun ctx seqId => rfl
  case state_restores =>
    intro ctx ctx' saved n hset _
    simp only [listLlama, List.length_replicate, Nat.add_sub_cancel, Encodable.encodek] at hset
    obtain rfl := (Prod.mk.inj hset).2
    rfl

end Reame.Core
