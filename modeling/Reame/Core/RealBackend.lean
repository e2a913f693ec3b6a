import Reame.Core.LlamaApi

/-!
# The real backend

`RealLlamaBackend` drives one llama.cpp context.  It gives every token of a batch its position
and its logits flag itself, and keeps the number of positions in a counter of its own,
`n_past_`, which no snapshot contains.

`LlamaBackend` models all this by the list of the tokens in the sequence.  Here the wrapper is
followed call by call over any llama.cpp that does what it documents: as long as the content of
the sequence is known, every call answers what `LlamaBackend` answers or throws a `ModelError`,
and a call that throws leaves the sequence as it was, or, where llama.cpp leaves anything
behind, unknown until the next `reset`, `decode` or `set_state` (`Explains`).

Vectors of `2^31` tokens and more, whose size the source casts to `std::int32_t`, are not
modelled.
-/

namespace Reame.Core

/-- The members of `RealLlamaBackend` that change. -/
structure RealBackend (σ : Type*) where
  ctx : σ
  nPast : ℕ

namespace RealBackend

variable {σ K : Type*}

section Calls

variable (api : LlamaApi σ K) (s : RealBackend σ)

/-! ## The calls -/

/-- The batch of `decode_impl`. -/
def batchOf (nPast : ℕ) (tokens : List TokenId) (allLogits : Bool) : List BatchEntry :=
  tokens.mapIdx fun i token =>
    ⟨token, toInt32 nPast + i, 0, allLogits || i + 1 == tokens.length⟩

/-- The loop that copies the logits of some positions. -/
def readLogits (ctx : σ) (missing : String) : List ℤ → Except Fault (List (List K))
  | [] => .ok []
  | i :: rest =>
      match api.logitsIth ctx i with
      | none => .error (.modelError (missing ++ toString i))
      | some logits => (readLogits ctx missing rest).map (logits :: ·)

/-- The positions whose logits `decode_impl` returns. -/
def positionsOf (n : ℕ) (allLogits : Bool) : List ℤ :=
  (List.range' (if allLogits then 0 else n - 1) (if allLogits then n else 1)).map Nat.cast

/-- `decode_impl`. -/
def decodeImpl (tokens : List TokenId) (allLogits : Bool) :
    Except Fault (List (List K)) × RealBackend σ :=
  if tokens = [] then (.error (.modelError "decode of zero tokens"), s)
  else
    let (status, ctx) := api.decode s.ctx (batchOf s.nPast tokens allLogits)
    if status ≠ 0 then
      (.error (.modelError ("llama_decode failed with status " ++ toString status)), { s with ctx })
    else
      (readLogits api ctx "no logits returned at batch position "
          (positionsOf tokens.length allLogits),
        { ctx, nPast := (s.nPast + tokens.length) % 2 ^ 32 })

/-- `reset`. -/
def reset : RealBackend σ := { ctx := api.memoryClear s.ctx, nPast := 0 }

/-- `decode_append`. -/
def decodeAppend (tokens : List TokenId) : Except Fault (List K) × RealBackend σ :=
  let (result, s) := decodeImpl api s tokens false
  (result.map (·.getLastD []), s)

/-- `decode`. -/
def decode (tokens : List TokenId) : Except Fault (List K) × RealBackend σ :=
  decodeAppend api (reset api s) tokens

/-- `decode_batch`. -/
def decodeBatch (tokens : List TokenId) : Except Fault (List (List K)) × RealBackend σ :=
  decodeImpl api s tokens true

/-- `truncate_to`. -/
def truncateTo (n : ℕ) : Except Fault Unit × RealBackend σ :=
  if s.nPast ≤ n then (.ok (), s)
  else
    let (removed, ctx) := api.memorySeqRm s.ctx 0 (toInt32 n) (-1)
    if removed then (.ok (), { ctx, nPast := n })
    else
      (.error (.modelError ("failed to truncate sequence to " ++ toString n ++ " tokens")),
        { s with ctx })

/-- `state_data`. -/
def stateData : Except Fault Bytes :=
  let data := api.stateGetData s.ctx
  if data = [] then .error (.modelError "llama_state_get_data failed") else .ok data

/-- `set_state`. -/
def setState (data : Bytes) (nPast : ℕ) : Except Fault Unit × RealBackend σ :=
  let (read, ctx) := api.stateSetData s.ctx data
  if read = 0 then
    (.error (.modelError "llama_state_set_data failed (incompatible or truncated state blob)"),
      { s with ctx })
  else (.ok (), { ctx, nPast })

end Calls

/-! ## Calls and what they answer -/

/-- A call of the single-sequence interface. -/
inductive Call
  | reset
  | decode (tokens : List TokenId)
  | decodeAppend (tokens : List TokenId)
  | decodeBatch (tokens : List TokenId)
  | truncateTo (n : ℕ)
  | stateData
  | setState (data : Bytes) (nPast : ℕ)
deriving DecidableEq, Repr

/-- What a call returns. -/
inductive Answer (K : Type*)
  | done
  | logits (logits : List K)
  | allLogits (logits : List (List K))
  | blob (data : Bytes)

/-- Perform a call. -/
def perform (api : LlamaApi σ K) (s : RealBackend σ) : Call → Except Fault (Answer K) × RealBackend σ
  | .reset => (.ok .done, reset api s)
  | .decode tokens => (decode api s tokens).map (·.map .logits) id
  | .decodeAppend tokens => (decodeAppend api s tokens).map (·.map .logits) id
  | .decodeBatch tokens => (decodeBatch api s tokens).map (·.map .allLogits) id
  | .truncateTo n => (truncateTo api s n).map (·.map fun _ => .done) id
  | .stateData => ((stateData api s).map .blob, s)
  | .setState data nPast => (setState api s data nPast).map (·.map fun _ => .done) id

/-- The calls, each with what came of it, and the backend after them. -/
def runCalls (api : LlamaApi σ K) (s : RealBackend σ) :
    List Call → List (Call × Except Fault (Answer K)) × RealBackend σ
  | [] => ([], s)
  | call :: calls =>
      let (outcome, s) := perform api s call
      let (later, s) := runCalls api s calls
      ((call, outcome) :: later, s)

/-! ## What the sequence holds -/

variable {api : LlamaApi σ K} {cells : σ → ℤ → List Cell} {attend : List Cell → List K}

/-- A context holds these tokens in its sequence. -/
structure Holds (api : LlamaApi σ K) (cells : σ → ℤ → List Cell) (ctx : σ)
    (tokens : List TokenId) : Prop where
  cells : cells ctx 0 = tokens.zipIdx
  fits : tokens.length ≤ api.contextLength

/-- The sequence holds these tokens, and the counter says so; `none` when its content is not
known. -/
def Represents (api : LlamaApi σ K) (cells : σ → ℤ → List Cell) (held : Option (List TokenId))
    (s : RealBackend σ) : Prop :=
  ∀ tokens ∈ held, Holds api cells s.ctx tokens ∧ s.nPast = tokens.length

/-- A blob that was taken of a context with these tokens. -/
def Saved (api : LlamaApi σ K) (cells : σ → ℤ → List Cell) (data : Bytes) (tokens : List TokenId) :
    Prop :=
  ∃ ctx, api.stateGetData ctx = data ∧ Holds api cells ctx tokens

/-- A snapshot is restored with the number of tokens it was taken of. -/
def Permitted (api : LlamaApi σ K) (cells : σ → ℤ → List Cell) : Call → Prop
  | .setState data nPast => ∃ tokens, Saved api cells data tokens ∧ nPast = tokens.length
  | _ => True

/-- A call that leaves the sequence alone when it throws, unless llama.cpp broke it. -/
def Call.Declines : Call → Prop
  | .reset | .decode _ | .setState _ _ => False
  | _ => True

/-- What is thrown for a status of `llama_decode` after which anything may be left of a batch. -/
def Fatal (what : String) : Prop :=
  ∃ status : ℤ, status ≠ 0 ∧ status ≠ 1 ∧ status ≠ -1 ∧
    what = "llama_decode failed with status " ++ toString status

/-- A call that throws this may leave the content of the sequence unknown. -/
def Call.MayLose (what : String) : Call → Prop
  | .decode _ | .decodeAppend _ | .decodeBatch _ => Fatal what
  | .setState _ _ => True
  | .reset | .truncateTo _ | .stateData => False

/-- A call that goes on with what the sequence holds; the others begin anew. -/
def Call.GoesOn : Call → Prop
  | .decodeAppend _ | .decodeBatch _ | .truncateTo _ | .stateData => True
  | .reset | .decode _ | .setState _ _ => False

/-- A call, what comes of it and what the sequence holds before and after it, in the terms of the
model. -/
inductive Explains (model : LlamaBackend K) (saved : Bytes → List TokenId → Prop) :
    Option (List TokenId) → Call → Except Fault (Answer K) → Option (List TokenId) → Prop
  | reset (held) : Explains model saved held .reset (.ok .done) (some [])
  | decode (held) (tokens : List TokenId) :
      Explains model saved held (.decode tokens) (.ok (.logits (model.logits tokens))) (some tokens)
  | decodeAppend (kv tokens : List TokenId) :
      Explains model saved (some kv) (.decodeAppend tokens)
        (.ok (.logits (model.decodeAppend kv tokens).2)) (some (model.decodeAppend kv tokens).1)
  | decodeBatch (kv tokens : List TokenId) :
      Explains model saved (some kv) (.decodeBatch tokens)
        (.ok (.allLogits (model.decodeBatch kv tokens).2)) (some (model.decodeBatch kv tokens).1)
  | truncateTo (kv : List TokenId) (n : ℕ) :
      Explains model saved (some kv) (.truncateTo n) (.ok .done)
        (some (LlamaBackend.truncateTo kv n))
  | stateData (kv : List TokenId) {data : Bytes} (hsaved : saved data kv) :
      Explains model saved (some kv) .stateData (.ok (.blob data)) (some kv)
  | setState (held) {data : Bytes} {tokens : List TokenId} (hsaved : saved data tokens) :
      Explains model saved held (.setState data tokens.length) (.ok .done) (some tokens)
  /-- The call throws and has changed nothing. -/
  | declined (held) {call : Call} (hcall : call.Declines) (what : String) :
      Explains model saved held call (.error (.modelError what)) held
  /-- `decode` throws and has emptied the sequence. -/
  | emptied (held) (tokens : List TokenId) (what : String) :
      Explains model saved held (.decode tokens) (.error (.modelError what)) (some [])
  /-- The call throws, and llama.cpp may have left anything behind. -/
  | broken (held) {call : Call} {what : String} (hcall : call.MayLose what) :
      Explains model saved held call (.error (.modelError what)) none
  /-- The call goes on with a sequence of which nothing is known. -/
  | unknown {call : Call} (hcall : call.GoesOn) (outcome : Except Fault (Answer K)) :
      Explains model saved none call outcome none

/-- One call after the other is explained. -/
inductive Explained (model : LlamaBackend K) (saved : Bytes → List TokenId → Prop) :
    Option (List TokenId) → List (Call × Except Fault (Answer K)) → Option (List TokenId) → Prop
  | nil (held) : Explained model saved held [] held
  | cons {held next last call outcome rest} (hcall : Explains model saved held call outcome next)
      (hrest : Explained model saved next rest last) :
      Explained model saved held ((call, outcome) :: rest) last

/-! ## A batch of one sequence -/

theorem getElem?_batchOf {nPast : ℕ} (hpast : nPast < 2 ^ 31) (tokens : List TokenId)
    (allLogits : Bool) (i : ℕ) :
    (batchOf nPast tokens allLogits)[i]? = tokens[i]?.map fun token =>
      ⟨token, nPast + i, 0, allLogits || i + 1 == tokens.length⟩ := by
  rw [batchOf, List.getElem?_mapIdx, toInt32_of_mem (by omega) (by exact_mod_cast hpast)]

/-- The cells of the batch are the tokens at the positions behind the sequence. -/
theorem cellsOf_batchOf {nPast : ℕ} (hpast : nPast < 2 ^ 31) (tokens : List TokenId)
    (allLogits : Bool) : cellsOf (batchOf nPast tokens allLogits) 0 = tokens.zipIdx nPast := by
  have hall : (batchOf nPast tokens allLogits).filter (·.seqId = 0) =
      batchOf nPast tokens allLogits := by
    refine List.filter_eq_self.mpr fun entry hentry => ?_
    obtain ⟨i, -, rfl⟩ := List.mem_mapIdx.mp hentry
    rfl
  rw [cellsOf, hall]
  refine List.ext_getElem? fun i => ?_
  rw [List.getElem?_map, getElem?_batchOf hpast, List.getElem?_zipIdx, Option.map_map]
  refine Option.map_congr fun token _ => ?_
  show (token, (nPast + i : ℤ).toNat) = (token, nPast + i)
  congr 1

/-- What is read back if every position has the logits it should have. -/
theorem readLogits_eq {ctx : σ} {missing : String} {positions : List ℤ} {logits : ℤ → List K}
    (hlogits : ∀ i ∈ positions, api.logitsIth ctx i = some (logits i)) :
    readLogits api ctx missing positions = .ok (positions.map logits) := by
  induction positions with
  | nil => rfl
  | cons i rest ih =>
      rw [readLogits, hlogits i (List.mem_cons_self ..),
        ih fun j hj => hlogits j (List.mem_cons_of_mem _ hj)]
      rfl

/-- A sequence that has been continued by a batch. -/
theorem Holds.continued (hdoc : api.Documented cells attend) {ctx ctx' : σ}
    {kv tokens : List TokenId} {allLogits : Bool} (hholds : Holds api cells ctx kv)
    (hne : tokens ≠ []) (hdecode : api.decode ctx (batchOf kv.length tokens allLogits) = (0, ctx')) :
    Holds api cells ctx' (kv ++ tokens) := by
  have hkv : kv.length < 2 ^ 31 := hholds.fits.trans_lt hdoc.contextLength_lt
  have hbatch := cellsOf_batchOf hkv tokens allLogits
  have hafter : cells ctx' 0 = (kv ++ tokens).zipIdx := by
    rw [hdoc.decode_appends hdecode, hholds.cells, hbatch, List.zipIdx_append, Nat.zero_add]
  refine ⟨hafter, ?_⟩
  have hroom := hdoc.decode_fits hdecode 0 (by simpa [hbatch] using hne)
  rwa [hafter, List.length_zipIdx] at hroom

/-- The logits of a position of a sequence that has just been continued. -/
theorem logitsIth_batch (hdoc : api.Documented cells attend) {ctx ctx' : σ}
    {kv tokens : List TokenId} {allLogits : Bool} (hholds : Holds api cells ctx kv)
    (hdecode : api.decode ctx (batchOf kv.length tokens allLogits) = (0, ctx')) {i : ℕ}
    (hi : i < tokens.length) (hflag : allLogits = true ∨ i + 1 = tokens.length) :
    api.logitsIth ctx' i = some (attend (kv ++ tokens.take (i + 1)).zipIdx) := by
  have hkv : kv.length < 2 ^ 31 := hholds.fits.trans_lt hdoc.contextLength_lt
  have hafter := (hholds.continued hdoc (List.ne_nil_of_length_pos (by omega)) hdecode).cells
  have hentry : (batchOf kv.length tokens allLogits)[i]? =
      some ⟨tokens[i], kv.length + i, 0, allLogits || i + 1 == tokens.length⟩ := by
    rw [getElem?_batchOf hkv, List.getElem?_eq_getElem hi, Option.map_some]
  have hlogits := hdoc.decode_logits hdecode i _ hentry (by simpa using hflag)
  have hsame : ∀ cell : Cell, (cell.2 : ℤ) ≤ kv.length + i ↔ cell.2 < 0 + (kv.length + (i + 1)) := by
    intro cell
    omega
  simp only [hafter, hsame] at hlogits
  rw [hlogits, filter_zipIdx, List.take_length_add_append]

/-- A batch that llama.cpp has processed. -/
theorem decodeImpl_ok (hdoc : api.Documented cells attend) {s : RealBackend σ}
    {kv tokens : List TokenId} (hs : Represents api cells (some kv) s)
    (hne : tokens ≠ []) {allLogits : Bool}
    (hstatus : (api.decode s.ctx (batchOf s.nPast tokens allLogits)).1 = 0) :
    ∃ s', decodeImpl api s tokens allLogits =
        (.ok ((positionsOf tokens.length allLogits).map fun i =>
          attend (kv ++ tokens.take (i.toNat + 1)).zipIdx), s') ∧
      Represents api cells (some (kv ++ tokens)) s' := by
  obtain ⟨hholds, hpast⟩ := hs kv rfl
  obtain ⟨ctx', hdecode⟩ :
      ∃ ctx', api.decode s.ctx (batchOf kv.length tokens allLogits) = (0, ctx') := by
    rw [hpast] at hstatus
    exact ⟨_, Prod.ext hstatus rfl⟩
  have hafter := hholds.continued hdoc hne hdecode
  have hread : readLogits api ctx' "no logits returned at batch position "
      (positionsOf tokens.length allLogits) =
        .ok ((positionsOf tokens.length allLogits).map fun i =>
          attend (kv ++ tokens.take (i.toNat + 1)).zipIdx) := by
    refine readLogits_eq fun i hi => ?_
    obtain ⟨j, hj, rfl⟩ := List.mem_map.mp hi
    have hpos := List.length_pos_iff.mpr hne
    rw [List.mem_range'_1] at hj
    refine logitsIth_batch hdoc hholds hdecode ?_ ?_
    · split at hj <;> omega
    · split at hj
      · exact .inl ‹_›
      · exact .inr (by omega)
  refine ⟨{ ctx := ctx', nPast := (s.nPast + tokens.length) % 2 ^ 32 }, ?_, ?_⟩
  · rw [decodeImpl, if_neg hne, hpast, hdecode]
    dsimp only
    rw [if_neg (by simp), hread]
  · rintro _ ⟨⟩
    refine ⟨hafter, ?_⟩
    have hlength : (kv ++ tokens).length < 2 ^ 31 := hafter.fits.trans_lt hdoc.contextLength_lt
    rw [List.length_append] at hlength ⊢
    show (s.nPast + tokens.length) % 2 ^ 32 = _
    rw [hpast]
    omega

/-- A batch that llama.cpp has not processed. -/
theorem decodeImpl_error (hdoc : api.Documented cells attend) {s : RealBackend σ}
    {held : Option (List TokenId)} (hs : Represents api cells held s) {tokens : List TokenId}
    {allLogits : Bool} (hfailed : tokens = [] ∨
      (api.decode s.ctx (batchOf s.nPast tokens allLogits)).1 ≠ 0) :
    ∃ what s' held', decodeImpl api s tokens allLogits = (.error (.modelError what), s') ∧
      (held' = held ∨ held' = none ∧ Fatal what) ∧ Represents api cells held' s' := by
  by_cases hne : tokens = []
  · exact ⟨_, s, held, by rw [decodeImpl, if_pos hne], .inl rfl, hs⟩
  have hstatus := hfailed.resolve_left hne
  cases hdecode : api.decode s.ctx (batchOf s.nPast tokens allLogits) with
  | mk status ctx' =>
      rw [hdecode] at hstatus
      have hresult : decodeImpl api s tokens allLogits =
          (.error (.modelError ("llama_decode failed with status " ++ toString status)),
            { s with ctx := ctx' }) := by
        rw [decodeImpl, if_neg hne, hdecode]
        dsimp only
        rw [if_pos hstatus]
      by_cases hrestored : status = 1 ∨ status = -1
      · refine ⟨_, _, held, hresult, .inl rfl, fun kv hkv => ?_⟩
        obtain ⟨hholds, hpast⟩ := hs kv hkv
        refine ⟨⟨?_, hholds.fits⟩, hpast⟩
        rw [hdoc.decode_restores hdecode hrestored, hholds.cells]
      · rw [not_or] at hrestored
        exact ⟨_, _, none, hresult, .inr ⟨rfl, status, hstatus, hrestored.1, hrestored.2, rfl⟩,
          fun kv hkv => by cases hkv⟩

/-! ## Call by call -/

section Refinement

variable {model : LlamaBackend K} {s : RealBackend σ} {held : Option (List TokenId)}

theorem represents_none (s : RealBackend σ) : Represents api cells none s :=
  fun tokens htokens => by cases htokens

theorem Represents.reset (hdoc : api.Documented cells attend) (s : RealBackend σ) :
    Represents api cells (some []) (reset api s) := by
  rintro _ ⟨⟩
  exact ⟨⟨hdoc.clear s.ctx 0, Nat.zero_le _⟩, rfl⟩

/-- The positions that `decode_impl` returns, in the terms of the model. -/
theorem positionsOf_false {n : ℕ} : positionsOf n false = [((n - 1 : ℕ) : ℤ)] := rfl

theorem positionsOf_true {n : ℕ} : positionsOf n true = (List.range n).map Nat.cast := by
  rw [positionsOf, List.range_eq_range']
  rfl

/-- Either the batch is decoded, or the call throws. -/
theorem decode_or (api : LlamaApi σ K) (s : RealBackend σ) (tokens : List TokenId)
    (allLogits : Bool) :
    (tokens ≠ [] ∧ (api.decode s.ctx (batchOf s.nPast tokens allLogits)).1 = 0) ∨
      (tokens = [] ∨ (api.decode s.ctx (batchOf s.nPast tokens allLogits)).1 ≠ 0) := by
  by_cases hne : tokens = []
  · exact .inr (.inl hne)
  · by_cases hstatus : (api.decode s.ctx (batchOf s.nPast tokens allLogits)).1 = 0
    · exact .inl ⟨hne, hstatus⟩
    · exact .inr (.inr hstatus)

/-- `decode_append` on a sequence that is known. -/
theorem decodeAppend_spec (hdoc : api.Documented cells attend)
    (hmodel : ∀ tokens, attend tokens.zipIdx = model.logits tokens) {kv : List TokenId}
    (hs : Represents api cells (some kv) s) (tokens : List TokenId) :
    (∃ s', decodeAppend api s tokens = (.ok (model.decodeAppend kv tokens).2, s') ∧
        Represents api cells (some (kv ++ tokens)) s') ∨
      ∃ what s' held', decodeAppend api s tokens = (.error (.modelError what), s') ∧
        (held' = some kv ∨ held' = none ∧ Fatal what) ∧ Represents api cells held' s' := by
  rcases decode_or api s tokens false with ⟨hne, hstatus⟩ | hfailed
  · obtain ⟨s', hresult, hafter⟩ := decodeImpl_ok hdoc hs hne hstatus
    refine .inl ⟨s', ?_, hafter⟩
    have hwhole : tokens.length - 1 + 1 = tokens.length := by
      have hpos := List.length_pos_iff.mpr hne
      omega
    rw [decodeAppend, hresult, positionsOf_false]
    simp only [List.map_cons, List.map_nil, Int.toNat_natCast, hwhole, List.take_length, hmodel]
    rfl
  · obtain ⟨what, s', held', hresult, hheld, hafter⟩ := decodeImpl_error hdoc hs hfailed
    exact .inr ⟨what, s', held', by rw [decodeAppend, hresult]; rfl, hheld, hafter⟩

/-- `decode_batch` on a sequence that is known. -/
theorem decodeBatch_spec (hdoc : api.Documented cells attend)
    (hmodel : ∀ tokens, attend tokens.zipIdx = model.logits tokens) {kv : List TokenId}
    (hs : Represents api cells (some kv) s) (tokens : List TokenId) :
    (∃ s', decodeBatch api s tokens = (.ok (model.decodeBatch kv tokens).2, s') ∧
        Represents api cells (some (kv ++ tokens)) s') ∨
      ∃ what s' held', decodeBatch api s tokens = (.error (.modelError what), s') ∧
        (held' = some kv ∨ held' = none ∧ Fatal what) ∧ Represents api cells held' s' := by
  rcases decode_or api s tokens true with ⟨hne, hstatus⟩ | hfailed
  · obtain ⟨s', hresult, hafter⟩ := decodeImpl_ok hdoc hs hne hstatus
    refine .inl ⟨s', ?_, hafter⟩
    rw [decodeBatch, hresult, positionsOf_true, List.map_map]
    simp only [Function.comp_def, Int.toNat_natCast, hmodel]
    rfl
  · exact .inr (decodeImpl_error hdoc hs hfailed)

/-- `truncate_to` on a sequence that is known. -/
theorem truncateTo_spec (hdoc : api.Documented cells attend) {kv : List TokenId}
    (hs : Represents api cells (some kv) s) (n : ℕ) :
    (∃ s', truncateTo api s n = (.ok (), s') ∧
        Represents api cells (some (LlamaBackend.truncateTo kv n)) s') ∨
      ∃ what s', truncateTo api s n = (.error (.modelError what), s') ∧
        Represents api cells (some kv) s' := by
  obtain ⟨hholds, hpast⟩ := hs kv rfl
  by_cases hn : s.nPast ≤ n
  · refine .inl ⟨s, by rw [truncateTo, if_pos hn], ?_⟩
    rw [LlamaBackend.truncateTo, List.take_of_length_le (hpast ▸ hn)]
    exact hs
  have hlimit := hholds.fits.trans_lt hdoc.contextLength_lt
  have hpos : toInt32 n = n := toInt32_of_mem (by omega) (by omega)
  cases hremove : api.memorySeqRm s.ctx 0 (toInt32 n) (-1) with
  | mk removed ctx' =>
      cases removed with
      | true =>
          refine .inl ⟨_, by rw [truncateTo, if_neg hn, hremove]; rfl, ?_⟩
          rintro _ ⟨⟩
          have hcells := hdoc.seqRm_true le_rfl hremove 0
          rw [if_pos rfl, hpos, hholds.cells, filter_not_inRange] at hcells
          refine ⟨⟨hcells, (List.length_take_le' n kv).trans hholds.fits⟩, ?_⟩
          show n = (kv.take n).length
          rw [List.length_take]
          omega
      | false =>
          refine .inr ⟨_, _, by rw [truncateTo, if_neg hn, hremove]; rfl, ?_⟩
          rintro _ ⟨⟩
          exact ⟨⟨by rw [hdoc.seqRm_false hremove, hholds.cells], hholds.fits⟩, hpast⟩

/-- Every call is explained by what the sequence holds. -/
theorem perform_explained (hdoc : api.Documented cells attend)
    (hmodel : ∀ tokens, attend tokens.zipIdx = model.logits tokens)
    (hs : Represents api cells held s) {call : Call} (hpermitted : Permitted api cells call) :
    ∃ held', Explains model (Saved api cells) held call (perform api s call).1 held' ∧
      Represents api cells held' (perform api s call).2 := by
  cases call with
  | reset => exact ⟨some [], .reset held, Represents.reset hdoc s⟩
  | decode tokens =>
      rcases decodeAppend_spec hdoc hmodel (Represents.reset hdoc s) tokens with
        ⟨s', hresult, hafter⟩ | ⟨what, s', held', hresult, hheld, hafter⟩
      · refine ⟨some tokens, ?_, ?_⟩
        · rw [perform, decode, hresult]
          exact .decode held tokens
        · rw [perform, decode, hresult]
          exact hafter
      · refine ⟨held', ?_, ?_⟩
        · rw [perform, decode, hresult]
          rcases hheld with rfl | ⟨rfl, hfatal⟩
          · exact .emptied held tokens what
          · exact .broken held (by exact hfatal)
        · rw [perform, decode, hresult]
          exact hafter
  | decodeAppend tokens =>
      rcases held with - | kv
      · exact ⟨none, .unknown (by trivial) _, represents_none _⟩
      rcases decodeAppend_spec hdoc hmodel hs tokens with
        ⟨s', hresult, hafter⟩ | ⟨what, s', held', hresult, hheld, hafter⟩
      · rw [perform, hresult]
        exact ⟨_, .decodeAppend kv tokens, hafter⟩
      · rw [perform, hresult]
        rcases hheld with rfl | ⟨rfl, hfatal⟩
        · exact ⟨_, .declined _ (by trivial) what, hafter⟩
        · exact ⟨_, .broken _ (by exact hfatal), hafter⟩
  | decodeBatch tokens =>
      rcases held with - | kv
      · exact ⟨none, .unknown (by trivial) _, represents_none _⟩
      rcases decodeBatch_spec hdoc hmodel hs tokens with
        ⟨s', hresult, hafter⟩ | ⟨what, s', held', hresult, hheld, hafter⟩
      · rw [perform, hresult]
        exact ⟨_, .decodeBatch kv tokens, hafter⟩
      · rw [perform, hresult]
        rcases hheld with rfl | ⟨rfl, hfatal⟩
        · exact ⟨_, .declined _ (by trivial) what, hafter⟩
        · exact ⟨_, .broken _ (by exact hfatal), hafter⟩
  | truncateTo n =>
      rcases held with - | kv
      · exact ⟨none, .unknown (by trivial) _, represents_none _⟩
      rcases truncateTo_spec hdoc hs n with ⟨s', hresult, hafter⟩ | ⟨what, s', hresult, hafter⟩
      · rw [perform, hresult]
        exact ⟨_, .truncateTo kv n, hafter⟩
      · rw [perform, hresult]
        exact ⟨_, .declined _ (by trivial) what, hafter⟩
  | stateData =>
      rcases held with - | kv
      · exact ⟨none, .unknown (by trivial) _, represents_none _⟩
      rw [perform, stateData]
      dsimp only
      by_cases hempty : api.stateGetData s.ctx = []
      · rw [if_pos hempty]
        exact ⟨_, .declined _ (by trivial) _, hs⟩
      · rw [if_neg hempty]
        exact ⟨_, .stateData kv ⟨s.ctx, rfl, (hs kv rfl).1⟩, hs⟩
  | setState data nPast =>
      obtain ⟨tokens, hsaved, rfl⟩ := hpermitted
      obtain ⟨saved, rfl, hholds⟩ := hsaved
      cases hset : api.stateSetData s.ctx (api.stateGetData saved) with
      | mk read ctx' =>
          rw [perform, setState, hset]
          dsimp only
          by_cases hread : read = 0
          · rw [if_pos hread]
            exact ⟨none, .broken held (by trivial), represents_none _⟩
          · rw [if_neg hread]
            refine ⟨some tokens, .setState held ⟨saved, rfl, hholds⟩, ?_⟩
            rintro _ ⟨⟩
            refine ⟨⟨?_, hholds.fits⟩, rfl⟩
            show cells ctx' 0 = _
            rw [hdoc.state_restores hset hread, hholds.cells]

/-- A call loses nothing unless it throws what may lose something. -/
theorem Explains.known {saved : Bytes → List TokenId → Prop} {kv : List TokenId} {call : Call}
    {outcome : Except Fault (Answer K)} {next : Option (List TokenId)}
    (hcall : Explains model saved (some kv) call outcome next)
    (hkeeps : ∀ what, outcome = .error (.modelError what) → ¬ call.MayLose what) :
    next ≠ none := by
  cases hcall with
  | broken _ hlose => exact absurd hlose (hkeeps _ rfl)
  | _ => exact Option.some_ne_none _

theorem Explained.known {saved : Bytes → List TokenId → Prop} {next : Option (List TokenId)}
    {outcomes : List (Call × Except Fault (Answer K))}
    (hrun : Explained model saved held outcomes next) (hheld : held ≠ none)
    (hkeeps : ∀ p ∈ outcomes, ∀ what, p.2 = .error (.modelError what) → ¬ p.1.MayLose what) :
    next ≠ none := by
  induction hrun with
  | nil => exact hheld
  | cons hcall hrest ih =>
      obtain ⟨kv, rfl⟩ := Option.ne_none_iff_exists'.mp hheld
      have hfirst := hcall.known (hkeeps _ (List.mem_cons_self ..))
      exact ih hfirst fun p hp => hkeeps p (List.mem_cons_of_mem _ hp)

/-- From a new context on, whatever is called and whatever llama.cpp answers, each call does what
it does to the list of tokens in the sequence, or throws.  The content of the sequence, with the
counter, is lost only to a `set_state` that throws or to a status of `llama_decode` that says so. -/
theorem real_backend_explained (hdoc : api.Documented cells attend)
    (hmodel : ∀ tokens, attend tokens.zipIdx = model.logits tokens) {ctx : σ}
    (hfresh : cells ctx 0 = []) {calls : List Call}
    (hpermitted : ∀ call ∈ calls, Permitted api cells call) :
    ∃ held, Explained model (Saved api cells) (some []) (runCalls api ⟨ctx, 0⟩ calls).1 held ∧
      Represents api cells held (runCalls api ⟨ctx, 0⟩ calls).2 ∧
      ((∀ p ∈ (runCalls api ⟨ctx, 0⟩ calls).1, ∀ what, p.2 = .error (.modelError what) →
          ¬ p.1.MayLose what) → held ≠ none) := by
  have hstart : Represents api cells (some []) ⟨ctx, 0⟩ := by
    rintro _ ⟨⟩
    exact ⟨⟨hfresh, Nat.zero_le _⟩, rfl⟩
  have hrun : ∀ (s : RealBackend σ) held, Represents api cells held s →
      ∃ last, Explained model (Saved api cells) held (runCalls api s calls).1 last ∧
        Represents api cells last (runCalls api s calls).2 := by
    induction calls with
    | nil => exact fun s held hs => ⟨held, .nil held, hs⟩
    | cons call calls ih =>
        intro s held hs
        obtain ⟨next, hcall, hnext⟩ :=
          perform_explained hdoc hmodel hs (hpermitted call (List.mem_cons_self ..))
        obtain ⟨last, hrest, hlast⟩ :=
          ih (fun later hlater => hpermitted later (List.mem_cons_of_mem _ hlater)) _ next hnext
        exact ⟨last, .cons hcall hrest, hlast⟩
  obtain ⟨held, hexplained, hafter⟩ := hrun _ _ hstart
  exact ⟨held, hexplained, hafter, hexplained.known (Option.some_ne_none _)⟩

end Refinement

/-! ## A run -/

/-- The logits of a model that only counts. -/
def countLogits (n : ℕ) : List ℚ := [n, 0]

theorem length_countLogits (kv : List TokenId) : (countLogits kv.length).length = 2 := rfl

/-- A model that only counts its tokens. -/
def countingModel : LlamaBackend ℚ where
  vocabSize := 2
  contextLength := 8
  eosToken := 1
  isEog := (· = 1)
  logits kv := countLogits kv.length
  tokenize _ _ := []
  detokenize _ := []
  tokenPiece _ := []
  vocabSize_pos := Nat.two_pos
  length_logits := length_countLogits

/-- The library that holds it. -/
def countingLlama : LlamaApi (ListContext ℚ) ℚ := listLlama (fun cells => countLogits cells.length) 8

theorem documented_countingLlama :
    countingLlama.Documented ListContext.cells fun cells => countLogits cells.length :=
  documented_listLlama _ (by decide)

/-- A prompt, a batch, a roll-back and one more token. -/
theorem real_backend_explained_rollback :
    let calls : List Call := [.decode [3, 1], .decodeBatch [4, 1, 5], .truncateTo 3, .decodeAppend [9]]
    let outcomes := (runCalls countingLlama ⟨{}, 0⟩ calls).1
    let after := (runCalls countingLlama ⟨{}, 0⟩ calls).2
    ∃ held, Explained countingModel (Saved countingLlama ListContext.cells) (some []) outcomes held ∧
      Represents countingLlama ListContext.cells held after ∧
      ((∀ p ∈ outcomes, ∀ what, p.2 = .error (.modelError what) → ¬ p.1.MayLose what) →
        held ≠ none) :=
  real_backend_explained documented_countingLlama
    (fun tokens => congrArg countLogits (List.length_zipIdx)) rfl
    (by simp [Permitted])

end RealBackend

end Reame.Core
