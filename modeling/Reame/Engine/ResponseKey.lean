import Reame.Core.RepeatPenalty
import Reame.Engine.GreedyStream

/-!
# The key of the response cache

A deterministic request is cached under a key made of the model, the token budget and the
prompt.  The repeat penalty is not in it, although it changes what greedy decoding picks:
two requests with one key get the same completion from every engine exactly when their
penalties come to the same thing, or nothing is generated (`key_determines_iff`).
-/

namespace Reame.Engine

open Reame.Core Reame.Cache Reame.Speculative

variable {K : Type*}

/-- `std::to_string` of an `int`. -/
def decimalInt (n : ℤ) : Bytes :=
  if n < 0 then chr '-' :: Wire.decimal n.natAbs else Wire.decimal n.natAbs

/-- What `cache_key` hashes. -/
def responseMaterial (modelTag prompt : Bytes) (gen : GenerationConfig K) : Bytes :=
  modelTag ++ [0x1f] ++ decimalInt gen.maxTokens ++ [0x1f] ++ prompt

/-- `cache_key`; `hash` is `std::hash<std::string>`. -/
def cacheKey (hash : Bytes → UInt64) (modelTag prompt : Bytes) (gen : GenerationConfig K) : Bytes :=
  ascii "resp:" ++ hex64 (hash (responseMaterial modelTag prompt gen))

/-- The text of a reply. -/
def Reply.text (reply : Reply) : Bytes := reply.pieces.flatten

/-! ## The material -/

theorem decimalInt_inj {m n : ℤ} (heq : decimalInt m = decimalInt n) : m = n := by
  have hsign : ∀ k : ℕ, Wire.decimal k ≠ [] ∧ (Wire.decimal k).head? ≠ some (chr '-') := by
    intro k
    refine ⟨Wire.decimal_ne_nil k, fun hhead => ?_⟩
    have hdigit := Wire.isDigit_of_mem_decimal (List.mem_of_mem_head? hhead)
    exact absurd hdigit (by decide)
  have hvalue : ∀ k l : ℕ, Wire.decimal k = Wire.decimal l → k = l := fun k l h => by
    rw [← Wire.digitsValue_decimal k, h, Wire.digitsValue_decimal]
  unfold decimalInt at heq
  split at heq <;> split at heq
  · have := hvalue _ _ (List.cons.inj heq).2
    omega
  · exact absurd (by rw [← heq]; rfl) (hsign n.natAbs).2
  · exact absurd (by rw [heq]; rfl) (hsign m.natAbs).2
  · have := hvalue _ _ heq
    omega

theorem separator_notMem_decimalInt (n : ℤ) : (0x1f : UInt8) ∉ decimalInt n := by
  have hdecimal : ∀ k : ℕ, (0x1f : UInt8) ∉ Wire.decimal k := fun k hmem =>
    absurd (Wire.isDigit_of_mem_decimal hmem) (by decide)
  unfold decimalInt
  split
  · simp only [List.mem_cons, not_or]
    exact ⟨by decide, hdecimal _⟩
  · exact hdecimal _

/-- For one model the material determines the prompt and the budget. -/
theorem responseMaterial_inj {modelTag p₁ p₂ : Bytes} {g₁ g₂ : GenerationConfig K}
    (heq : responseMaterial modelTag p₁ g₁ = responseMaterial modelTag p₂ g₂) :
    p₁ = p₂ ∧ g₁.maxTokens = g₂.maxTokens := by
  have hbudget : ∀ (n : ℤ) (rest : Bytes),
      (decimalInt n ++ (0x1f : UInt8) :: rest).takeWhile (· ≠ (0x1f : UInt8)) = decimalInt n := by
    intro n rest
    rw [List.takeWhile_append_of_pos, List.takeWhile_cons_of_neg (by simp), List.append_nil]
    intro b hb
    have hne : b ≠ 0x1f := fun heq => separator_notMem_decimalInt n (heq ▸ hb)
    simpa using hne
  simp only [responseMaterial, List.append_assoc, List.append_cancel_left_eq,
    List.cons_append, List.cons.injEq, true_and] at heq
  have hcut := congrArg (List.takeWhile (· ≠ (0x1f : UInt8))) heq
  rw [hbudget, hbudget] at hcut
  rw [hcut, List.append_cancel_left_eq, List.cons.injEq] at heq
  exact ⟨heq.2, decimalInt_inj hcut⟩

/-! ## Penalties -/

variable [Field K] [LinearOrder K]

/-- The repeat penalty does nothing. -/
def PenaltyOff (gen : GenerationConfig K) : Prop := gen.repeatPenalty = 1 ∨ gen.repeatLastN ≤ 0

/-- The repeat penalties of two requests come to the same thing. -/
def SamePenalty (g₁ g₂ : GenerationConfig K) : Prop :=
  (PenaltyOff g₁ ∧ PenaltyOff g₂) ∨
    (g₁.repeatPenalty = g₂.repeatPenalty ∧ g₁.repeatLastN = g₂.repeatLastN)

instance (gen : GenerationConfig K) : Decidable (PenaltyOff gen) :=
  inferInstanceAs (Decidable (_ ∨ _))

theorem penalize_off {gen : GenerationConfig K} (hoff : PenaltyOff gen) (logits : List K)
    (recent : List TokenId) : penalize gen logits recent = logits := by
  rw [penalize, if_neg]
  rintro ⟨hpenalty, hwindow⟩
  rcases hoff with hone | hnone
  · exact hpenalty hone
  · omega

theorem SamePenalty.pick {g₁ g₂ : GenerationConfig K} (hsame : SamePenalty g₁ g₂)
    (engine : ReameEngine K) (history : List TokenId) :
    engine.pick g₁ history = engine.pick g₂ history := by
  simp only [ReameEngine.pick, greedyToken]
  rcases hsame with ⟨hoff₁, hoff₂⟩ | ⟨hpenalty, hwindow⟩
  · rw [penalize_off hoff₁, penalize_off hoff₂]
  · rw [penalize, penalize, hpenalty, hwindow]

omit [Field K] in
theorem maxElement_pair (x y : K) :
    maxElement [x, y] = if x < y then 1 else 0 := by
  simp [maxElement, maxElementFrom]

theorem penalizeToken_first (penalty x y : K) :
    penalizeToken penalty [x, y] 0 = [penalizeLogit penalty x, y] := by
  simp [penalizeToken, penalizeLogit]

theorem penalizeToken_second (penalty x y : K) :
    penalizeToken penalty [x, y] 1 = [x, penalizeLogit penalty y] := by
  simp [penalizeToken, penalizeLogit]

theorem penalize_seconds (penalty x y : K) (n : ℕ) :
    (List.replicate n (1 : TokenId)).foldl (penalizeToken penalty) [x, y] =
      [x, (penalizeLogit penalty)^[n] y] := by
  induction n generalizing y with
  | zero => rfl
  | succ n ih =>
      rw [List.replicate_succ, List.foldl_cons, penalizeToken_second, ih, Function.iterate_succ_apply]

section Split

variable [IsStrictOrderedRing K]

/-- What the penalty multiplies a negative logit by. -/
def factor (gen : GenerationConfig K) : K := if PenaltyOff gen then 1 else gen.repeatPenalty

/-- A prompt of one token tells different factors apart. -/
theorem split_by_factor {g₁ g₂ : GenerationConfig K} (hne : factor g₁ ≠ factor g₂) :
    greedyToken g₁ [-1, -min (factor g₁) (factor g₂)] [0] ≠
      greedyToken g₂ [-1, -min (factor g₁) (factor g₂)] [0] := by
  have hpenalized : ∀ (gen : GenerationConfig K) (y : K),
      penalize gen [-1, y] [0] = [-factor gen, y] := by
    intro gen y
    unfold factor
    split
    · rename_i hoff
      exact penalize_off hoff _ _
    · rename_i hon
      have hon' : gen.repeatPenalty ≠ 1 ∧ 0 < gen.repeatLastN := by
        simpa [PenaltyOff, not_or, not_le] using hon
      have hwindow : min [(0 : TokenId)].length gen.repeatLastN.toNat = 1 := by
        rw [List.length_singleton]
        omega
      rw [penalize, if_pos hon', hwindow]
      simp [penalizeToken_first, penalizeLogit, not_lt.mpr (zero_le_one' K)]
  simp only [greedyToken, hpenalized, maxElement_pair, neg_lt_neg_iff]
  rcases lt_or_gt_of_ne hne with hlt | hlt
  · simp [min_eq_left hlt.le, hlt]
  · simp [min_eq_right hlt.le, hlt]

/-- The logit of the second token that tells windows apart. -/
def windowLogit (penalty : K) (n : ℕ) : K := if 0 < penalty then -min 1 penalty / penalty ^ n else 0

/-- A prompt one token longer than the shorter window tells the windows apart. -/
theorem split_by_window {g₁ g₂ : GenerationConfig K} (hpenalty : g₁.repeatPenalty = g₂.repeatPenalty)
    (hone : g₁.repeatPenalty ≠ 1) (hpos : 0 < g₁.repeatLastN)
    (hlt : g₁.repeatLastN < g₂.repeatLastN) :
    let n := g₁.repeatLastN.toNat
    let logits := [-1, windowLogit g₁.repeatPenalty n]
    greedyToken g₁ logits (0 :: List.replicate n 1) ≠
      greedyToken g₂ logits (0 :: List.replicate n 1) := by
  intro n logits
  have hlength : (0 :: List.replicate n (1 : TokenId)).length = n + 1 := by simp
  set b := (penalizeLogit g₁.repeatPenalty)^[n] (windowLogit g₁.repeatPenalty n) with hb
  have hfirst : penalize g₁ logits (0 :: List.replicate n 1) = [-1, b] := by
    have hwindow : n + 1 - min (n + 1) g₁.repeatLastN.toNat = 1 := by omega
    rw [penalize, if_pos ⟨hone, hpos⟩, hlength]
    simp only [hwindow, List.drop_succ_cons, List.drop_zero, logits, penalize_seconds, hb]
  have hsecond : penalize g₂ logits (0 :: List.replicate n 1) = [-g₁.repeatPenalty, b] := by
    have hwindow : n + 1 - min (n + 1) g₂.repeatLastN.toNat = 0 := by omega
    have hlogit : penalizeLogit g₁.repeatPenalty (-1) = -g₁.repeatPenalty := by
      simp [penalizeLogit, not_lt.mpr (zero_le_one' K)]
    rw [penalize, if_pos ⟨hpenalty ▸ hone, hpos.trans hlt⟩, hlength]
    simp only [hwindow, List.drop_zero, List.foldl_cons, logits, ← hpenalty, penalizeToken_first,
      penalize_seconds, hlogit, hb]
  simp only [greedyToken, hfirst, hsecond, maxElement_pair]
  by_cases hp : 0 < g₁.repeatPenalty
  · have hb' : b = -min 1 g₁.repeatPenalty := by
      have hmin : -min 1 g₁.repeatPenalty / g₁.repeatPenalty ^ n ≤ 0 :=
        div_nonpos_of_nonpos_of_nonneg (neg_nonpos.mpr (le_min zero_le_one hp.le)) (pow_nonneg hp.le _)
      rw [hb, windowLogit, if_pos hp, iterate_penalizeLogit hp hmin,
        div_mul_cancel₀ _ (pow_ne_zero _ hp.ne')]
    rw [hb']
    rcases lt_or_gt_of_ne hone with hsmall | hlarge
    · simp [min_eq_right hsmall.le, hsmall]
    · simp [min_eq_left hlarge.le, hlarge]
  · have hb' : b = 0 := by rw [hb, windowLogit, if_neg hp, iterate_penalizeLogit_zero]
    simp [hb', hp]

/-- Two penalties that differ can be told apart by a model with two tokens. -/
theorem exists_split {g₁ g₂ : GenerationConfig K} (hint₁ : g₁.repeatLastN < 2 ^ 31)
    (hint₂ : g₂.repeatLastN < 2 ^ 31) (hdiffer : ¬ SamePenalty g₁ g₂) :
    ∃ (prompt : List TokenId) (b : K), prompt ≠ [] ∧ prompt.length < 2 ^ 31 ∧
      (∀ t ∈ prompt, t = 0 ∨ t = 1) ∧
      greedyToken g₁ [-1, b] prompt ≠ greedyToken g₂ [-1, b] prompt := by
  by_cases hfactor : factor g₁ = factor g₂
  · -- Both penalties are on and equal, so the windows differ.
    have hon : ¬ PenaltyOff g₁ ∧ ¬ PenaltyOff g₂ ∧ g₁.repeatPenalty = g₂.repeatPenalty := by
      unfold factor at hfactor
      split at hfactor <;> split at hfactor
      · rename_i hoff₁ hoff₂
        exact absurd (.inl ⟨hoff₁, hoff₂⟩) hdiffer
      · rename_i hon₂
        exact absurd (.inl hfactor.symm) hon₂
      · rename_i hon₁ _
        exact absurd (.inl hfactor) hon₁
      · rename_i hon₁ hon₂
        exact ⟨hon₁, hon₂, hfactor⟩
    obtain ⟨hon₁, hon₂, hpenalty⟩ := hon
    simp only [PenaltyOff, not_or, not_le] at hon₁ hon₂
    have hwindow : g₁.repeatLastN ≠ g₂.repeatLastN := fun heq => hdiffer (.inr ⟨hpenalty, heq⟩)
    have hprompt : ∀ n : ℕ, ∀ t ∈ (0 : TokenId) :: List.replicate n 1, t = 0 ∨ t = 1 := by
      intro n t ht
      rcases List.mem_cons.mp ht with rfl | ht
      · exact .inl rfl
      · exact .inr (List.eq_of_mem_replicate ht)
    rcases lt_or_gt_of_ne hwindow with hlt | hlt
    · refine ⟨_, _, List.cons_ne_nil _ _, ?_, hprompt _, split_by_window hpenalty hon₁.1 hon₁.2 hlt⟩
      rw [List.length_cons, List.length_replicate]
      omega
    · refine ⟨_, _, List.cons_ne_nil _ _, ?_, hprompt _,
        (split_by_window hpenalty.symm hon₂.1 hon₂.2 hlt).symm⟩
      rw [List.length_cons, List.length_replicate]
      omega
  · exact ⟨[0], _, by simp, by simp, by simp, split_by_factor hfactor⟩

end Split

/-! ## Completions -/

/-- A caller that takes everything. -/
def takeAll : TextCallback := fun _ => .keepGoing

/-- On every engine of this kind, requests with these configurations and with one key
material get the same completion. -/
def KeyDetermines (kind : PathKind) (g₁ g₂ : GenerationConfig K) : Prop :=
  ∀ engine : ReameEngine K, engine.path.kind = kind → ∀ p₁ p₂,
    responseMaterial engine.modelTag p₁ g₁ = responseMaterial engine.modelTag p₂ g₂ →
    engine.Ready (engine.backend.tokenize p₁ true) g₁ →
    engine.Ready (engine.backend.tokenize p₂ true) g₂ →
    ∀ r₁ r₂, engine.Produces p₁ g₁ takeAll r₁ → engine.Produces p₂ g₂ takeAll r₂ →
      r₁.error = r₂.error ∧ r₁.text = r₂.text

section Completions

variable [IsStrictOrderedRing K] {engine : ReameEngine K} {prompt : Bytes}
  {gen : GenerationConfig K}

omit [Field K] [LinearOrder K] [IsStrictOrderedRing K] in
theorem openRequest_silent {backend : LlamaBackend K} (hecho : gen.echoPrompt = false)
    (callback : TextCallback) :
    openRequest backend prompt gen callback =
      match checkPrompt backend.contextLength (backend.tokenize prompt true) with
      | some fault => .inl ⟨some fault, []⟩
      | none => .inr (backend.tokenize prompt true, []) := by
  unfold openRequest
  dsimp only
  cases checkPrompt backend.contextLength (backend.tokenize prompt true) with
  | some fault => rfl
  | none => exact if_neg (by simp [hecho])

/-- A greedy request that does not echo fails the checks, or gets the whole stream. -/
theorem produces_takeAll (htemp : gen.temperature ≤ 0) (hecho : gen.echoPrompt = false)
    (hready : engine.Ready (engine.backend.tokenize prompt true) gen) {reply : Reply}
    (hproduces : engine.Produces prompt gen takeAll reply) :
    (∃ fault, checkPrompt engine.nCtx (engine.backend.tokenize prompt true) = some fault ∧
        reply = ⟨some fault, []⟩) ∨
      (checkPrompt engine.nCtx (engine.backend.tokenize prompt true) = none ∧
        ∃ full, Streaming.Whole (engine.nextToken gen (engine.backend.tokenize prompt true)) full ∧
          reply = engine.replyOf [] none full) := by
  have hopened : openRequest engine.backend prompt gen takeAll = _ :=
    openRequest_silent hecho takeAll
  unfold ReameEngine.Produces at hproduces
  rcases hopen : openRequest engine.backend prompt gen takeAll with early | ⟨tokens, echoed⟩
  · rw [hopen] at hproduces hopened
    left
    split at hopened
    · rename_i fault hcheck
      cases hopened
      exact ⟨fault, hcheck, hproduces⟩
    · cases hopened
  · rw [hopen] at hproduces hopened
    obtain ⟨-, hne, hfits⟩ := openRequest_inr hopen
    right
    split at hopened
    · cases hopened
    · rename_i hcheck
      cases hopened
      obtain ⟨full, hstream, hreply, herror⟩ := ReameEngine.generates_streams htemp hready hne hfits
        hproduces
      have hnone : reply.error = none := by
        rcases herror with hnone | hthrows
        · exact hnone
        · cases hthrows
      rw [hnone] at hreply
      exact ⟨hcheck, full, hstream, hreply⟩

/-- A greedy request gets a reply. -/
theorem exists_produces (htemp : gen.temperature ≤ 0)
    (hready : engine.Ready (engine.backend.tokenize prompt true) gen) (callback : TextCallback) :
    ∃ reply, engine.Produces prompt gen callback reply := by
  unfold ReameEngine.Produces
  rcases hopen : openRequest engine.backend prompt gen callback with early | ⟨tokens, echoed⟩
  · exact ⟨early, rfl⟩
  · obtain ⟨rfl, hne, hfits⟩ := openRequest_inr hopen
    exact ReameEngine.exists_generates htemp hready hne hfits echoed callback

/-- One stream for both configurations makes one completion. -/
theorem same_completion {g₁ g₂ : GenerationConfig K} (htemp₁ : g₁.temperature ≤ 0)
    (htemp₂ : g₂.temperature ≤ 0) (hecho₁ : g₁.echoPrompt = false) (hecho₂ : g₂.echoPrompt = false)
    (hready₁ : engine.Ready (engine.backend.tokenize prompt true) g₁)
    (hready₂ : engine.Ready (engine.backend.tokenize prompt true) g₂)
    (hnext : ∀ full₁ full₂,
      Streaming.Whole (engine.nextToken g₁ (engine.backend.tokenize prompt true)) full₁ →
      Streaming.Whole (engine.nextToken g₂ (engine.backend.tokenize prompt true)) full₂ →
      full₁ = full₂)
    {r₁ r₂ : Reply} (hr₁ : engine.Produces prompt g₁ takeAll r₁)
    (hr₂ : engine.Produces prompt g₂ takeAll r₂) : r₁ = r₂ := by
  rcases produces_takeAll htemp₁ hecho₁ hready₁ hr₁ with
    ⟨fault₁, hcheck₁, rfl⟩ | ⟨hcheck₁, full₁, hwhole₁, rfl⟩ <;>
  rcases produces_takeAll htemp₂ hecho₂ hready₂ hr₂ with
    ⟨fault₂, hcheck₂, rfl⟩ | ⟨hcheck₂, full₂, hwhole₂, rfl⟩
  · rw [Option.some.inj (hcheck₁.symm.trans hcheck₂)]
  · cases hcheck₁.symm.trans hcheck₂
  · cases hcheck₁.symm.trans hcheck₂
  · rw [hnext full₁ full₂ hwhole₁ hwhole₂]

end Completions

/-! ## Engines that tell requests apart -/

section Engines

variable (prompt : List TokenId) (hprompt : prompt.length < 2 ^ 31) (b : K)

/-- A model over two tokens with constant logits, for a single prompt, and with room for
one token after it. -/
def splitBackend : LlamaBackend K where
  vocabSize := 2
  contextLength := prompt.length + 1
  eosToken := 2
  isEog _ := false
  logits _ := [-1, b]
  tokenize _ special := if special then prompt else []
  detokenize _ := []
  tokenPiece token := if token = 0 then ascii "no" else ascii "yes"
  vocabSize_pos := Nat.two_pos
  length_logits _ := rfl

omit [LinearOrder K] in
include hprompt in
theorem splitBackend_contextLength_lt : (splitBackend prompt b).contextLength < 2 ^ 32 := by
  change prompt.length + 1 < 2 ^ 32
  omega

/-- The engine of each kind over that model. -/
def splitEngine (lib : StdLib K) (modelTag : Bytes) : PathKind → ReameEngine K
  | .classic =>
      { lib
        modelTag
        path := .classic
          { splitBackend prompt b with
            attend := fun _ => [-1, b]
            stateData := fun cells => List.replicate (Encodable.encode cells) 0
            parseState := fun data => Encodable.decode data.length
            restoreFails := fun _ => false
            clobbered := fun _ => []
            attend_zipIdx := fun _ => rfl
            length_attend := fun _ => rfl
            parseState_stateData := decode_length_zeros
            contextLength_le := hprompt } }
  | .speculative =>
      { lib
        modelTag
        path := .speculative
          { target := splitBackend prompt b
            draft := none
            config :=
              { mode := .promptLookup
                draftTokens := 16
                minDraftTokens := 2
                maxDraftTokens := 32
                lookupMaxNgram := 3
                lookupMinNgram := 1
                corpus := none
                useSpeculative := true
                disableAfterDrafted := 96
                disableBelowAcceptance := 3 / 10 } } }
  | .parallel =>
      { lib
        modelTag
        path := .parallel
          { splitBackend prompt b with
            refuses := fun _ _ => none
            contextLength_lt := splitBackend_contextLength_lt prompt hprompt b } 2 }

variable {prompt} {b}

theorem splitEngine_backend (lib : StdLib K) (modelTag : Bytes) (kind : PathKind) :
    (splitEngine prompt hprompt b lib modelTag kind).backend = splitBackend prompt b ∧
      (splitEngine prompt hprompt b lib modelTag kind).path.kind = kind := by
  cases kind <;> exact ⟨rfl, rfl⟩

theorem splitEngine_ready (hvocab : ∀ t ∈ prompt, t = 0 ∨ t = 1) (lib : StdLib K)
    (modelTag : Bytes) (kind : PathKind) (gen : GenerationConfig K) :
    (splitEngine prompt hprompt b lib modelTag kind).Ready prompt gen := by
  cases kind with
  | classic => exact trivial
  | parallel => exact ⟨by decide, fun _ _ => rfl⟩
  | speculative =>
      refine ⟨?_, ?_, ?_, ?_⟩
      · intro hmode
        cases hmode
      · intro hmode
        cases hmode
      · intro hmode
        cases hmode
      · rintro - generated hgenerated n tokens hdraft t ht
        have hmem := Call.lookupDraft_subset rfl (fun _ => rfl) hdraft ht
        rcases List.mem_append.mp hmem with hmem | hmem
        · rcases hvocab t hmem with rfl | rfl
          · exact ⟨le_rfl, Int.ofNat_lt.mpr Nat.two_pos⟩
          · exact ⟨Int.one_nonneg, Int.ofNat_lt.mpr (by decide : 1 < 2)⟩
        · exact hgenerated t hmem

/-- These engines generate one token, the greedy one. -/
theorem splitEngine_whole (lib : StdLib K) (modelTag : Bytes) {kind : PathKind}
    {gen : GenerationConfig K} (hgoing : kind = .parallel ∨ 0 < gen.maxTokens) :
    Streaming.Whole ((splitEngine prompt hprompt b lib modelTag kind).nextToken gen prompt)
      [(greedyToken gen [-1, b] prompt : TokenId)] := by
  let engine := splitEngine prompt hprompt b lib modelTag kind
  have hbackend : engine.backend = splitBackend prompt b :=
    (splitEngine_backend hprompt lib modelTag kind).1
  have hkind : engine.path.kind = kind := (splitEngine_backend hprompt lib modelTag kind).2
  have hnCtx : engine.nCtx = prompt.length + 1 := by
    rw [ReameEngine.nCtx, hbackend]
    rfl
  have hpick : engine.pick gen (prompt ++ []) = greedyToken gen [-1, b] prompt := by
    rw [List.append_nil, ReameEngine.pick, hbackend]
    rfl
  have hstart : ¬ engine.Ended gen prompt [] := by
    unfold ReameEngine.Ended
    rw [hkind, hnCtx]
    cases kind <;> simp at hgoing ⊢ <;> omega
  have hend : ∀ t : TokenId, engine.Ended gen prompt [t] := by
    intro t
    unfold ReameEngine.Ended
    rw [hkind, hnCtx]
    cases kind <;> simp
  have heog : ¬ engine.backend.isEog (engine.pick gen (prompt ++ [])) := by
    rw [hbackend]
    exact Bool.false_ne_true
  have hnext := ReameEngine.nextToken_some hstart heog
  rw [hpick] at hnext
  refine .next ?_ (.leave (Streaming.step_of_none (ReameEngine.nextToken_ended (hend _))))
  rw [Streaming.step_of_some hnext]
  rfl

end Engines

/-! ## When the key is enough -/

section Exact

variable [IsStrictOrderedRing K]

/-- The key determines the completion if the penalties come to the same thing, and also if
nothing is generated. -/
theorem keyDetermines_of_same {kind : PathKind} {g₁ g₂ : GenerationConfig K}
    (htemp₁ : g₁.temperature ≤ 0) (htemp₂ : g₂.temperature ≤ 0) (hecho₁ : g₁.echoPrompt = false)
    (hecho₂ : g₂.echoPrompt = false)
    (hsame : g₁.maxTokens ≠ g₂.maxTokens ∨ SamePenalty g₁ g₂ ∨
      (kind ≠ .parallel ∧ g₁.maxTokens ≤ 0)) : KeyDetermines kind g₁ g₂ := by
  intro engine hkind p₁ p₂ hmaterial hready₁ hready₂ r₁ r₂ hr₁ hr₂
  obtain ⟨rfl, hmax⟩ := responseMaterial_inj hmaterial
  have hequal : r₁ = r₂ := by
    refine same_completion htemp₁ htemp₂ hecho₁ hecho₂ hready₁ hready₂
      (fun full₁ full₂ hwhole₁ hwhole₂ => ?_) hr₁ hr₂
    rcases hsame with hbudget | hpenalty | ⟨hnot, hnone⟩
    · exact absurd hmax hbudget
    · have hnext : engine.nextToken g₁ (engine.backend.tokenize p₁ true) =
          engine.nextToken g₂ (engine.backend.tokenize p₁ true) := by
        funext delivered
        have hended : engine.Ended g₁ (engine.backend.tokenize p₁ true) delivered ↔
            engine.Ended g₂ (engine.backend.tokenize p₁ true) delivered := by
          unfold ReameEngine.Ended
          rw [hmax]
        simp only [ReameEngine.nextToken, hended, hpenalty.pick]
      rw [hnext] at hwhole₁
      exact hwhole₁.unique hwhole₂
    · have hempty : ∀ g : GenerationConfig K, g.maxTokens ≤ 0 →
          engine.nextToken g (engine.backend.tokenize p₁ true) [] = none := by
        intro g hg
        apply ReameEngine.nextToken_ended
        unfold ReameEngine.Ended
        rw [hkind]
        cases kind with
        | classic => exact .inl (by simpa using hg)
        | speculative => exact .inl (by simpa using hg)
        | parallel => exact absurd rfl hnot
      rw [hwhole₁.unique (.leave (Streaming.step_of_none (hempty g₁ hnone))),
        hwhole₂.unique (.leave (Streaming.step_of_none (hempty g₂ (hmax ▸ hnone))))]
  rw [hequal]
  exact ⟨rfl, rfl⟩

/-- For deterministic requests that do not echo, the key determines the completion on every
engine of a kind exactly when the budgets differ, so that the keys do, when the repeat
penalties come to the same thing, or when nothing is generated: outside parallel mode,
where a first token is always sampled, with a budget that is not positive. -/
theorem key_determines_iff (lib : StdLib K) (kind : PathKind) {g₁ g₂ : GenerationConfig K}
    (htemp₁ : g₁.temperature ≤ 0) (htemp₂ : g₂.temperature ≤ 0) (hecho₁ : g₁.echoPrompt = false)
    (hecho₂ : g₂.echoPrompt = false) (hint₁ : g₁.repeatLastN < 2 ^ 31)
    (hint₂ : g₂.repeatLastN < 2 ^ 31) :
    KeyDetermines kind g₁ g₂ ↔ g₁.maxTokens ≠ g₂.maxTokens ∨ SamePenalty g₁ g₂ ∨
      (kind ≠ .parallel ∧ g₁.maxTokens ≤ 0) := by
  refine ⟨fun hdetermines => ?_, keyDetermines_of_same htemp₁ htemp₂ hecho₁ hecho₂⟩
  by_contra hnot
  simp only [not_or, not_and, ne_eq, not_not, not_le] at hnot
  obtain ⟨hmax, hpenalty, hgoing⟩ := hnot
  obtain ⟨prompt, b, hne, hprompt, hvocab, hsplit⟩ := exists_split hint₁ hint₂ hpenalty
  let engine := splitEngine prompt hprompt b lib [] kind
  have hbackend : engine.backend = splitBackend prompt b :=
    (splitEngine_backend hprompt lib [] kind).1
  have hkind : engine.path.kind = kind := (splitEngine_backend hprompt lib [] kind).2
  have htokens : engine.backend.tokenize [] true = prompt := by
    rw [hbackend]
    rfl
  have hready : ∀ gen : GenerationConfig K, engine.Ready (engine.backend.tokenize [] true) gen := by
    rw [htokens]
    exact splitEngine_ready hprompt hvocab lib [] kind
  have hcompletion : ∀ gen : GenerationConfig K, gen.temperature ≤ 0 → gen.echoPrompt = false →
      (kind = .parallel ∨ 0 < gen.maxTokens) → ∃ reply, engine.Produces [] gen takeAll reply ∧
        reply.text = (splitBackend prompt b).tokenPiece (greedyToken gen [-1, b] prompt) := by
    intro gen htemp hecho hgoing
    obtain ⟨reply, hreply⟩ := exists_produces htemp (hready gen) takeAll
    refine ⟨reply, hreply, ?_⟩
    rcases produces_takeAll htemp hecho (hready gen) hreply with
      ⟨fault, hcheck, -⟩ | ⟨-, full, hwhole, rfl⟩
    · rw [htokens, ReameEngine.nCtx, hbackend, checkPrompt, if_neg hne, if_neg (by
        change ¬ prompt.length + 1 < prompt.length
        omega)] at hcheck
      cases hcheck
    · rw [htokens] at hwhole
      rw [hwhole.unique (splitEngine_whole hprompt lib [] hgoing)]
      simp [ReameEngine.replyOf, Reply.text, hbackend, engine]
  have hstarts : kind = .parallel ∨ 0 < g₁.maxTokens := by
    by_cases hparallel : kind = .parallel
    · exact .inl hparallel
    · exact .inr (hgoing hparallel)
  obtain ⟨r₁, hr₁, htext₁⟩ := hcompletion g₁ htemp₁ hecho₁ hstarts
  obtain ⟨r₂, hr₂, htext₂⟩ := hcompletion g₂ htemp₂ hecho₂ (hmax ▸ hstarts)
  have hmaterial :
      responseMaterial engine.modelTag [] g₁ = responseMaterial engine.modelTag [] g₂ := by
    rw [responseMaterial, responseMaterial, hmax]
  obtain ⟨-, htext⟩ := hdetermines engine hkind [] [] hmaterial (hready g₁) (hready g₂) r₁ r₂ hr₁ hr₂
  rw [htext₁, htext₂] at htext
  have hpieces : ∀ t : TokenId, (splitBackend prompt b).tokenPiece t = ascii "no" ↔ t = 0 := by
    intro t
    simp only [splitBackend]
    split
    · rename_i hzero
      simp [hzero]
    · rename_i hzero
      exact iff_of_false (by decide) hzero
  have hbit : ∀ gen : GenerationConfig K, greedyToken gen [-1, b] prompt < 2 := fun gen =>
    greedyToken_lt gen prompt (List.cons_ne_nil _ _)
  have hzero : (greedyToken g₁ [-1, b] prompt : ℤ) = 0 ↔
      (greedyToken g₂ [-1, b] prompt : ℤ) = 0 :=
    (hpieces _).symm.trans (by rw [htext]; exact hpieces _)
  have h₁ := hbit g₁
  have h₂ := hbit g₂
  omega

end Exact

/-- Requests that differ in the nucleus and the seed. -/
theorem key_determines_other_fields :
    KeyDetermines .classic (Scheduler.greedyConfig 3 : GenerationConfig ℚ)
      { Scheduler.greedyConfig 3 with topP := 1 / 2, seed := 7 } :=
  (key_determines_iff .rational .classic le_rfl le_rfl rfl rfl (by decide) (by decide)).mpr
    (.inr (.inl (.inr ⟨rfl, rfl⟩)))

/-- The key misses the repeat penalty: a request without one and a request with penalty 2
have the same key material and different completions. -/
theorem key_misses_penalty :
    let engine : ReameEngine ℚ := splitEngine [0] (by decide) (-1) .rational (ascii "m") .classic
    let plain : GenerationConfig ℚ := Scheduler.greedyConfig 1
    let penalised : GenerationConfig ℚ := { plain with repeatPenalty := 2, repeatLastN := 64 }
    responseMaterial engine.modelTag (ascii "hi") plain =
        responseMaterial engine.modelTag (ascii "hi") penalised ∧
      engine.Produces (ascii "hi") plain takeAll ⟨none, [ascii "no"]⟩ ∧
      engine.Produces (ascii "hi") penalised takeAll ⟨none, [ascii "yes"]⟩ ∧
      ¬ KeyDetermines .classic plain penalised := by
  intro engine plain penalised
  have hplain : engine.Produces (ascii "hi") plain takeAll ⟨none, [ascii "no"]⟩ :=
    ⟨⟨⟨[], 0, 0⟩, none, []⟩, by simp [TrustedCache], by decide +kernel⟩
  have hpenalised : engine.Produces (ascii "hi") penalised takeAll ⟨none, [ascii "yes"]⟩ :=
    ⟨⟨⟨[], 0, 0⟩, none, []⟩, by simp [TrustedCache], by decide +kernel⟩
  refine ⟨rfl, hplain, hpenalised, fun hdetermines => ?_⟩
  have htext := (hdetermines engine rfl _ _ rfl trivial trivial _ _ hplain hpenalised).2
  exact absurd htext (by decide)

end Reame.Engine
