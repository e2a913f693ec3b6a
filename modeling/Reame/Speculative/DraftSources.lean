import Reame.Core.Sampler
import Reame.Foundation.Wire

/-!
# Where drafts come from

A speculative decoder gets its proposals from a second model (`DraftGenerator`),
or, without one, from n-gram matches in the history (`PromptLookup`) and from the
structural rules of `FormDraft`.  The third lookup source, the archive of past
generations, is a parameter of the decoder.

The draft model is the one backend whose calls may fail.  `FaultyBackend` numbers
its calls and lets a predicate on these numbers decide which ones throw; a call that
throws may leave its sequence half changed.
-/

namespace Reame.Speculative

open Reame.Core Wire

/-- A backend whose `i`-th call throws when `fails i`, and then leaves `clobbered i` of its
sequence. -/
structure FaultyBackend (K : Type*) extends LlamaBackend K where
  fails : ℕ → Bool
  clobbered : ℕ → List TokenId → List TokenId := fun _ kv => kv

/-- The draft model's sequence, and how many calls it has answered. -/
structure DraftState where
  kv : List TokenId
  calls : ℕ
deriving DecidableEq

namespace FaultyBackend

variable {K : Type*} (backend : FaultyBackend K)

/-- One call of the draft backend: it is counted, and may throw. -/
def call {α : Type*} (state : DraftState) (body : List TokenId → List TokenId × α) :
    Except Fault α × DraftState :=
  let counted : DraftState := { state with calls := state.calls + 1 }
  if backend.fails state.calls then
    (.error (.modelError "draft backend failure"),
      { counted with kv := backend.clobbered state.calls state.kv })
  else
    let (kv, value) := body state.kv
    (.ok value, { counted with kv })

/-- `reset`. -/
def reset (state : DraftState) : Except Fault Unit × DraftState :=
  backend.call state fun _ => ([], ())

/-- `decode_append`. -/
def decodeAppend (state : DraftState) (tokens : List TokenId) :
    Except Fault (List K) × DraftState :=
  backend.call state fun kv => backend.toLlamaBackend.decodeAppend kv tokens

/-- `truncate_to`. -/
def truncateTo (state : DraftState) (n : ℕ) : Except Fault Unit × DraftState :=
  backend.call state fun kv => (LlamaBackend.truncateTo kv n, ())

end FaultyBackend

/-! ## The draft model -/

/-- `DraftResult`: the proposed tokens and the distribution each was drawn from. -/
structure DraftResult (K : Type*) where
  tokens : List TokenId := []
  probs : List (List K) := []

variable {K : Type*} [Field K] [LinearOrder K]

/-- What a rollout leaves behind: its result, and the generator and the draft
sequence it advanced. -/
structure Rollout (K : Type*) where
  result : Except Fault (DraftResult K)
  sampler : Sampler K
  draft : DraftState

/-- The loop of `DraftGenerator::generate_draft`, with `n` tokens still to draft. -/
def rolloutLoop (lib : StdLib K) (backend : FaultyBackend K) :
    ℕ → TokenId → List TokenId → Sampler K → DraftState → DraftResult K → Rollout K
  | 0, _, _, sampler, draft, result => ⟨.ok result, sampler, draft⟩
  | n + 1, cur, history, sampler, draft, result =>
      match backend.decodeAppend draft [cur] with
      | (.error fault, draft) => ⟨.error fault, sampler, draft⟩
      | (.ok logits, draft) =>
          match sampler.distribution lib logits history with
          | .error fault => ⟨.error fault, sampler, draft⟩
          | .ok probs =>
              match sampler.draw probs with
              | (.error fault, sampler) => ⟨.error fault, sampler, draft⟩
              | (.ok next, sampler) =>
                  let result : DraftResult K :=
                    ⟨result.tokens ++ [next], result.probs ++ [probs]⟩
                  if next = backend.eosToken then ⟨.ok result, sampler, draft⟩
                  else rolloutLoop lib backend n next (history ++ [next]) sampler draft result

/-- `DraftGenerator::generate_draft`; `draftTokens` is the generator's own setting,
used when `nTokens` is not positive. -/
def generateDraft (lib : StdLib K) (backend : FaultyBackend K) (draftTokens : ℤ)
    (lastToken : TokenId) (recent : List TokenId) (sampler : Sampler K) (draft : DraftState)
    (nTokens : ℤ) : Rollout K :=
  let n := if 0 < nTokens then nTokens else draftTokens
  rolloutLoop lib backend n.toNat lastToken recent sampler draft {}

/-! ## Prompt lookup -/

/-- The inner loop of `find_draft`: the largest start below the given bound at which
`tail` occurs. -/
def lastOccurrence (history tail : List TokenId) : ℕ → Option ℕ
  | 0 => none
  | start + 1 =>
      if (history.drop start).take tail.length = tail then some start
      else lastOccurrence history tail start

/-- The outer loop of `find_draft`: pattern lengths from `n` down to `minN`. -/
def findDraftFrom (history : List TokenId) (nDraft minN : ℕ) : ℕ → List TokenId
  | 0 => []
  | n + 1 =>
      if n + 1 < minN then []
      else if history.length < n + 1 + 1 then findDraftFrom history nDraft minN n
      else
        match lastOccurrence history (history.drop (history.length - (n + 1)))
            (history.length - (n + 1)) with
        | some start => (history.drop (start + (n + 1))).take nDraft
        | none => findDraftFrom history nDraft minN n

/-- `PromptLookup::find_draft`. -/
def findDraft (maxNgram minNgram : ℤ) (history : List TokenId) (nDraft : ℤ) : List TokenId :=
  if nDraft ≤ 0 then []
  else
    let maxN := max maxNgram 1
    let minN := min (max minNgram 1) maxN
    findDraftFrom history nDraft.toNat minN.toNat maxN.toNat

/-- A lookup proposes tokens of the history. -/
theorem findDraft_subset (maxNgram minNgram : ℤ) (history : List TokenId) (nDraft : ℤ) :
    findDraft maxNgram minNgram history nDraft ⊆ history := by
  have hfrom : ∀ limit minN n, findDraftFrom history limit minN n ⊆ history := by
    intro limit minN n
    induction n with
    | zero => simp [findDraftFrom]
    | succ n ih =>
        unfold findDraftFrom
        split
        · simp
        · split
          · exact ih
          · split
            · exact List.Subset.trans (List.take_subset _ _) (List.drop_subset _ _)
            · exact ih
  unfold findDraft
  split
  · simp
  · exact hfrom _ _ _

/-! ## Structural continuations -/

/-- `last_completed_line`: the line before the final newline, empty when the text
does not end with one. -/
def lastCompletedLine (tail : Bytes) : Bytes :=
  if tail.getLast? = some (chr '\n') then
    (tail.dropLast.reverse.takeWhile (· ≠ chr '\n')).reverse
  else []

/-- `parse_numbered_item`: the number of a list item and its separator; `0` when
the line is not one. -/
def parseNumberedItem (line : Bytes) : ℕ × UInt8 :=
  let digits := line.takeWhile isDigit
  let i := digits.length
  if i = 0 ∨ 9 < i then (0, chr '.')
  else
    match line.drop i with
    | sep :: space :: _ =>
        if (sep = chr '.' ∨ sep = chr ')') ∧ space = chr ' ' then (digitsValue digits, sep)
        else (0, chr '.')
    | _ => (0, chr '.')

/-- `is_bullet_item`, with the marker. -/
def bulletItem? : Bytes → Option UInt8
  | marker :: space :: _ =>
      if (marker = chr '-' ∨ marker = chr '*') ∧ space = chr ' ' then some marker else none
  | _ => none

/-- `FormDraft::propose`. -/
def propose (tail : Bytes) : Bytes :=
  let line := lastCompletedLine tail
  if line = [] then []
  else
    let (n, sep) := parseNumberedItem line
    if 0 < n then decimal (n + 1) ++ [sep, chr ' ']
    else
      match bulletItem? line with
      | some marker => [marker, chr ' ']
      | none => []

end Reame.Speculative
