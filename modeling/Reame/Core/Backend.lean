import Mathlib.Algebra.Order.Field.Basic
import Mathlib.Data.List.Infix
import Mathlib.Tactic

/-!
# The model backend

`LlamaBackend` is the seam between the engine and the model.  A backend is a
deterministic function from the tokens held in a KV sequence to the logits of
the next token; the KV content itself is explicit state, a list of tokens, that
the operations below extend and cut.

The C++ interface works with `std::vector<float>`; the model computes with an
arbitrary linearly ordered field `K`.  Token ids are `std::int32_t` in the
source and may be negative, so `TokenId` is `ℤ`; strings are byte strings.
-/

namespace Reame

/-- `reame::TokenId`. -/
abbrev TokenId := ℤ

/-- `std::string` and `std::vector<char>`: sequences of bytes. -/
abbrev Bytes := List UInt8

/-- The byte of an ASCII character. -/
def chr (c : Char) : UInt8 := c.toNat.toUInt8

/-- The bytes of an ASCII text. -/
def ascii (text : String) : Bytes := text.toList.map chr

/-- What leaves a C++ function other than by `return`.  `lengthError` is the
`std::length_error` of an oversized `resize`, `outOfBounds` marks a vector access
outside its bounds (undefined behaviour in the source), and `callback` stands for
whatever the caller's own callback threw. -/
inductive Fault
  | engineError (what : String)
  | modelError (what : String)
  | lengthError
  | outOfBounds
  | callback
deriving DecidableEq, Repr

/-- What a caller's callback does with a token. -/
inductive CallbackResult
  | keepGoing
  | stop
  | throws
deriving DecidableEq, Repr

/-- `std::function<bool(TokenId)>`, with the state a closure may keep: the answer
depends on everything delivered so far, the newest token last. -/
abbrev TokenCallback := List TokenId → CallbackResult

/-- `static_cast<int>` of a wider integer: reduction modulo `2^32` into the signed
32-bit range. -/
def toInt32 (n : ℤ) : ℤ := n.bmod (2 ^ 32)

theorem toInt32_of_mem {n : ℤ} (hlow : -2 ^ 31 ≤ n) (hhigh : n < 2 ^ 31) : toInt32 n = n := by
  unfold toInt32
  rw [Int.bmod_eq_of_le] <;> omega

namespace Core

/-! Numerals of the source's decimal constants, which are at least two by a named fact. -/

scoped instance atLeastTwo_three : Nat.AtLeastTwo 3 := ⟨by decide⟩

scoped instance atLeastTwo_seven : Nat.AtLeastTwo 7 := ⟨by decide⟩

scoped instance atLeastTwo_ten : Nat.AtLeastTwo 10 := ⟨by decide⟩

scoped instance atLeastTwo_eleven : Nat.AtLeastTwo 11 := ⟨by decide⟩

scoped instance atLeastTwo_ninetyFive : Nat.AtLeastTwo 95 := ⟨by decide⟩

scoped instance atLeastTwo_hundred : Nat.AtLeastTwo 100 := ⟨by decide⟩

/-- `reame::core::GenerationConfig`. -/
structure GenerationConfig (K : Type*) where
  maxTokens : ℤ
  temperature : K
  topP : K
  repeatPenalty : K
  repeatLastN : ℤ
  seed : ℤ
  echoPrompt : Bool

/-- The member initialisers of `GenerationConfig`. -/
def GenerationConfig.initial {K : Type*} [Field K] : GenerationConfig K where
  maxTokens := 512
  temperature := 7 / 10
  topP := 95 / 100
  repeatPenalty := 11 / 10
  repeatLastN := 64
  seed := 42
  echoPrompt := false

end Core

/-- `reame::LlamaBackend`, as far as it is deterministic and fault-free: the logits
depend on the tokens in the KV sequence only, and there is one per vocabulary
entry. -/
structure LlamaBackend (K : Type*) where
  vocabSize : ℕ
  contextLength : ℕ
  eosToken : TokenId
  isEog : TokenId → Bool
  /-- The logits after the last token of the given KV content. -/
  logits : List TokenId → List K
  tokenize : Bytes → Bool → List TokenId
  detokenize : List TokenId → Bytes
  tokenPiece : TokenId → Bytes
  vocabSize_pos : 0 < vocabSize
  length_logits : ∀ kv, (logits kv).length = vocabSize

namespace LlamaBackend

/-- The logits of a model over two tokens that prefers the first. -/
theorem length_firstOfTwo {K : Type*} [Field K] : ([1, 0] : List K).length = 2 := rfl

variable {K : Type*} (backend : LlamaBackend K)

/-- `decode_append`: continue the sequence and return the logits of its last token. -/
def decodeAppend (kv tokens : List TokenId) : List TokenId × List K :=
  (kv ++ tokens, backend.logits (kv ++ tokens))

/-- `decode_batch`: continue the sequence and return the logits of every position. -/
def decodeBatch (kv tokens : List TokenId) : List TokenId × List (List K) :=
  (kv ++ tokens,
    (List.range tokens.length).map fun i => backend.logits (kv ++ tokens.take (i + 1)))

/-- `truncate_to`: keep the first `n` positions. -/
def truncateTo (kv : List TokenId) (n : ℕ) : List TokenId := kv.take n

/-- The token ids the model can emit. -/
def InVocab (token : TokenId) : Prop := 0 ≤ token ∧ token < backend.vocabSize

instance (token : TokenId) : Decidable (backend.InVocab token) :=
  inferInstanceAs (Decidable (_ ∧ _))

theorem logits_ne_nil (kv : List TokenId) : backend.logits kv ≠ [] := by
  intro hnil
  have hlength := backend.length_logits kv
  rw [hnil] at hlength
  exact absurd backend.vocabSize_pos (by simp [← hlength])

@[simp] theorem decodeBatch_kv (kv tokens : List TokenId) :
    (backend.decodeBatch kv tokens).1 = kv ++ tokens := rfl

theorem decodeBatch_logits (kv : List TokenId) {tokens : List TokenId} {i : ℕ}
    (hi : i < tokens.length) :
    (backend.decodeBatch kv tokens).2[i]? = some (backend.logits (kv ++ tokens.take (i + 1))) := by
  simp [decodeBatch, hi]

end LlamaBackend

end Reame
