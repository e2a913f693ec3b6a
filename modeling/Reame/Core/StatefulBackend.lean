import Reame.Core.Backend

/-!
# The KV cache of one sequence

A single-sequence backend keeps cells, each a token at a position, and a counter of
its own, `n_past`, that says where the next token goes.  The counter is not part of the
snapshot `state_data` takes: whoever restores one has to supply it, and a wrong value
would put the following tokens at the wrong positions.

A failed `set_state` throws and may leave anything in the cells.
-/

namespace Reame

/-- A KV cell: a token and its position. -/
abbrev Cell := TokenId × ℕ

/-- The state of a single-sequence backend: its cells, `n_past_`, and the number of
`set_state` calls so far. -/
structure KvState where
  cells : List Cell
  nPast : ℕ
  restores : ℕ
deriving DecidableEq, Repr

/-- A backend whose sequence can be saved and restored. -/
structure StatefulBackend (K : Type*) extends LlamaBackend K where
  /-- The logits of the newest cell. -/
  attend : List Cell → List K
  /-- The blob of `state_data`. -/
  stateData : List Cell → Bytes
  /-- The cells in a blob; `none` when it is not one. -/
  parseState : Bytes → Option (List Cell)
  /-- Whether the `i`-th `set_state` fails for a reason of its own. -/
  restoreFails : ℕ → Bool
  /-- What the `i`-th `set_state` leaves behind when it fails. -/
  clobbered : ℕ → List Cell
  attend_zipIdx : ∀ tokens, attend tokens.zipIdx = logits tokens
  length_attend : ∀ cells, (attend cells).length = vocabSize
  parseState_stateData : ∀ cells, parseState (stateData cells) = some cells
  /-- Token counts and positions are `std::int32_t` in llama.cpp. -/
  contextLength_le : contextLength ≤ 2 ^ 31

/-- Cells are told by a blob as long as their code. -/
theorem decode_length_encode (b : UInt8) (cells : List Cell) :
    Encodable.decode (List.replicate (Encodable.encode cells) b).length = some cells := by
  rw [List.length_replicate, Encodable.encodek]

theorem decode_length_zeros (cells : List Cell) :
    Encodable.decode (List.replicate (Encodable.encode cells) (0 : UInt8)).length = some cells :=
  decode_length_encode 0 cells

/-- A context of eight tokens. -/
theorem eight_le_contextLimit : 8 ≤ 2 ^ 31 := by decide

/-- The sequence holds exactly these tokens. -/
def KvState.Holds (kv : KvState) (tokens : List TokenId) : Prop :=
  kv.cells = tokens.zipIdx ∧ kv.nPast = tokens.length

instance (kv : KvState) (tokens : List TokenId) : Decidable (kv.Holds tokens) :=
  inferInstanceAs (Decidable (_ ∧ _))

namespace StatefulBackend

variable {K : Type*} (backend : StatefulBackend K)

/-- `reset`. -/
def reset (kv : KvState) : KvState := { kv with cells := [], nPast := 0 }

/-- `decode_append`: the tokens take the positions from `n_past` on. -/
def decodeAppend (kv : KvState) (tokens : List TokenId) : Except Fault (List K) × KvState :=
  if tokens = [] then (.error (.modelError "decode of zero tokens"), kv)
  else
    let cells := kv.cells ++ tokens.zipIdx kv.nPast
    (.ok (backend.attend cells),
      { kv with cells, nPast := (kv.nPast + tokens.length) % 2 ^ 32 })

/-- `decode`: `reset` and one forward pass. -/
def decode (kv : KvState) (tokens : List TokenId) : Except Fault (List K) × KvState :=
  backend.decodeAppend (reset kv) tokens

/-- `set_state`. -/
def setState (kv : KvState) (data : Bytes) (nPast : ℕ) : Except Fault Unit × KvState :=
  let restores := kv.restores + 1
  match if backend.restoreFails kv.restores then none else backend.parseState data with
  | some cells => (.ok (), { cells, nPast, restores })
  | none =>
      (.error (.modelError "llama_state_set_data failed (incompatible or truncated state blob)"),
        { kv with cells := backend.clobbered kv.restores, restores })

theorem holds_reset (kv : KvState) : (reset kv).Holds [] := ⟨rfl, rfl⟩

/-- Appending to a sequence that holds some tokens. -/
theorem decodeAppend_holds {kv : KvState} {held tokens : List TokenId} (hkv : kv.Holds held)
    (hne : tokens ≠ []) (hlength : held.length + tokens.length < 2 ^ 32) :
    (backend.decodeAppend kv tokens).1 = .ok (backend.logits (held ++ tokens)) ∧
      (backend.decodeAppend kv tokens).2.Holds (held ++ tokens) := by
  obtain ⟨hcells, hpast⟩ := hkv
  have hzip : kv.cells ++ tokens.zipIdx kv.nPast = (held ++ tokens).zipIdx := by
    rw [hcells, hpast, List.zipIdx_append, Nat.zero_add]
  rw [decodeAppend, if_neg hne]
  refine ⟨?_, hzip, ?_⟩
  · dsimp only
    rw [hzip, backend.attend_zipIdx]
  · dsimp only
    rw [hpast, List.length_append, Nat.mod_eq_of_lt hlength]

/-- `decode` starts from nothing. -/
theorem decode_holds (kv : KvState) {tokens : List TokenId} (hne : tokens ≠ [])
    (hlength : tokens.length < 2 ^ 32) :
    (backend.decode kv tokens).1 = .ok (backend.logits tokens) ∧
      (backend.decode kv tokens).2.Holds tokens := by
  have hfresh := decodeAppend_holds backend (holds_reset kv) hne (by simpa using hlength)
  simpa [decode] using hfresh

/-- One more token. -/
theorem decodeAppend_next {kv : KvState} {held : List TokenId} (hkv : kv.Holds held)
    (next : TokenId) (hroom : held.length < 2 ^ 31) :
    ∃ kv', backend.decodeAppend kv [next] = (.ok (backend.logits (held ++ [next])), kv') ∧
      kv'.Holds (held ++ [next]) := by
  obtain ⟨hlogits, hholds⟩ := backend.decodeAppend_holds hkv (List.cons_ne_nil next [])
    (by rw [List.length_singleton]; omega)
  exact ⟨_, Prod.ext hlogits rfl, hholds⟩

/-- A restored snapshot holds what it was taken of. -/
theorem setState_stateData {kv kv' : KvState} {tokens : List TokenId}
    (hset : backend.setState kv (backend.stateData tokens.zipIdx) tokens.length = (.ok (), kv')) :
    kv'.Holds tokens := by
  unfold setState at hset
  rw [backend.parseState_stateData] at hset
  dsimp only at hset
  split at hset
  · rename_i cells hcells
    cases hset
    split at hcells
    · cases hcells
    · cases hcells
      exact ⟨rfl, rfl⟩
  · cases hset

end StatefulBackend

end Reame
