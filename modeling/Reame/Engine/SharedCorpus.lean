import Reame.Palimpsest.CorpusDraft
import Reame.Speculative.KvSync
import Reame.Speculative.LookupVocab

/-!
# One corpus, many models

An engine in prompt-lookup mode with a cache directory opens the corpus in it, whatever model the
corpus was filled by: `auto_config` gives all models the same directory.  The decoder takes what the
archive proposes for tokens of its own model, as "history tokens: always in the target vocabulary".
The history they come from may be another model's.

A `World` is the directory and the engine that is open on it, if there is one.  Engines are opened,
generate, are closed or killed, and between two lives the file may be damaged; `World.run` is any
sequence of this.  `LookupEngine.Fits` is the condition on the file an engine is opened on: at the
most recent place where an n-gram of its tokens occurs, the stream goes on with its tokens.  When
each engine is opened on such a file, every draft of every generation is in bounds, and when the
vocabularies of the engines never shrink this is always so (`archive_drafts_in_vocab`).
-/

namespace Reame.Palimpsest

open Retention

/-- Where an n-gram of tokens with `p` occurs for the last time, tokens with `p` follow. -/
def Closed (p : TokenId → Prop) (n : ℕ) (streams : List (List TokenId)) : Prop :=
  ∀ gram older stream newer i, streams = older ++ stream :: newer →
    MostRecent n gram stream newer i → (∀ t ∈ gram, p t) → ∀ t ∈ stream.drop (i + n), p t

variable {p : TokenId → Prop} {n : ℕ} {streams : List (List TokenId)}

theorem Closed.of_forall (hall : ∀ s ∈ streams, ∀ t ∈ s, p t) : Closed p n streams := by
  rintro gram older stream newer i rfl - - t ht
  exact hall stream (by simp) t (List.mem_of_mem_drop ht)

/-- Forgetting the oldest streams keeps the most recent places. -/
theorem Closed.of_suffix {later : List (List TokenId)} (hclosed : Closed p n streams)
    (hsuffix : later <:+ streams) : Closed p n later := by
  obtain ⟨forgotten, rfl⟩ := hsuffix
  rintro gram older stream newer i rfl hrecent
  exact hclosed gram (forgotten ++ older) stream newer i (List.append_assoc _ _ _).symm hrecent

/-- A new stream of such tokens keeps it so. -/
theorem Closed.append (hclosed : Closed p n streams) {tokens : List TokenId}
    (htokens : ∀ t ∈ tokens, p t) : Closed p n (streams ++ [tokens]) := by
  intro gram older stream newer i hstreams hrecent hgram
  rcases List.eq_nil_or_concat newer with rfl | ⟨newer, newest, rfl⟩
  · -- The n-gram occurs in the new stream.
    obtain ⟨-, hlast⟩ := List.append_inj' hstreams rfl
    cases hlast
    exact fun t ht => htokens t (List.mem_of_mem_drop ht)
  · rw [List.concat_eq_append, ← List.cons_append, ← List.append_assoc] at hstreams
    obtain ⟨hbefore, -⟩ := List.append_inj' hstreams rfl
    refine hclosed gram older stream newer i hbefore ⟨hrecent.followedAt, hrecent.last, ?_⟩ hgram
    rintro ⟨other, hmem, hother⟩
    exact hrecent.none_newer ⟨other, by rw [List.concat_eq_append]; simp [hmem], hother⟩

namespace CorpusIndex

variable {config : CorpusConfig} {corpus : CorpusIndex}

/-- A corpus whose streams, after tokens with `p`, go on with tokens with `p`. -/
def Recalls (p : TokenId → Prop) (config : CorpusConfig) (corpus : CorpusIndex) : Prop :=
  ∃ streams, Holds config corpus streams ∧ total List.length streams ≤ config.maxTokens ∧
    Closed p config.ngram streams

/-- It answers tokens with `p` with tokens with `p`. -/
theorem Recalls.draft (hrecalls : Recalls p config corpus) (hn : 1 ≤ config.ngram)
    (hbudget : config.maxTokens < 2 ^ 32) {tail : List TokenId} (htail : ∀ t ∈ tail, p t) (k : ℤ) :
    ∀ t ∈ corpus.draft config tail k, p t := by
  obtain ⟨streams, hholds, hfits, hclosed⟩ := hrecalls
  intro t ht
  rcases hholds.draft_mostRecent hn (lt_of_le_of_lt hfits hbudget) tail k with
    hnil | ⟨older, stream, newer, i, hstreams, hrecent, hdraft⟩
  · rw [hnil] at ht
    cases ht
  · rw [hdraft] at ht
    exact hclosed _ older stream newer i hstreams hrecent
      (fun t ht => htail t (List.mem_of_mem_drop ht)) t (List.mem_of_mem_take ht)

/-- Observing tokens with `p` keeps it so. -/
theorem Recalls.observe (hrecalls : Recalls p config corpus) {tokens : List TokenId}
    (htokens : ∀ t ∈ tokens, p t) : Recalls p config (corpus.observe config tokens) := by
  rw [CorpusIndex.observe]
  by_cases hempty : tokens = []
  · rw [if_pos hempty]
    exact hrecalls
  · obtain ⟨streams, hholds, -, hclosed⟩ := hrecalls
    rw [if_neg hempty]
    exact ⟨_, (append_holds hholds tokens).enforceBudget, total_fit_le _,
      (hclosed.append htokens).of_suffix (fit_suffix _)⟩

/-- A corpus that has just been loaded is judged by its streams. -/
theorem Recalls.load {file : Bytes} (hclosed : Closed p config.ngram (load config file).streams) :
    Recalls p config (load config file) := by
  have hholds := @load_holds config file
  rw [hholds.streams_eq] at hclosed
  exact ⟨_, hholds, total_fit_le _, hclosed⟩

end CorpusIndex

end Reame.Palimpsest

namespace Reame.Engine

open Reame.Core Reame.Palimpsest Reame.Speculative

variable {K : Type*} [Field K] [LinearOrder K]

/-! ## Lives -/

/-- The corpus configuration of an engine: the defaults. -/
def corpusConfig : CorpusConfig := {}

/-- A corpus as the decoder sees it. -/
def archiveOf (corpus : CorpusIndex) : Archive where
  draft := corpus.draft corpusConfig
  length_draft := corpus.length_draft_le corpusConfig

/-- A `ReameEngine` in prompt-lookup mode with a cache directory.  `config` is the configuration of
the decoder before the constructor sets its mode and its corpus. -/
structure LookupEngine (K : Type*) [Field K] [LinearOrder K] where
  lib : StdLib K
  target : LlamaBackend K
  draft : Option (FaultyBackend K)
  config : DecoderConfig K

/-- The decoder the constructor builds. -/
def LookupEngine.decoder (engine : LookupEngine K) (corpus : CorpusIndex) : Decoder K where
  target := engine.target
  draft := engine.draft
  config := { engine.config with mode := .promptLookup, corpus := some (archiveOf corpus) }

/-- An open engine: what changes in its decoder, and the corpus. -/
structure Life (K : Type*) [Field K] [LinearOrder K] where
  engine : LookupEngine K
  members : DecoderState
  draftState : DraftState
  corpus : CorpusIndex

/-- The cache directory: the file of the corpus, or the engine that has it open. -/
inductive World (K : Type*) [Field K] [LinearOrder K]
  | shut (file : Bytes)
  | serving (life : Life K)

/-- What happens to a cache directory.  Damage is anything else that writes the file, or loses part
of it. -/
inductive Event (K : Type*) [Field K] [LinearOrder K]
  | opens (engine : LookupEngine K)
  | generates (prompt : Bytes) (gen : GenerationConfig K) (callback : TokenCallback) (fuel : ℕ)
  | closes
  | killed
  | damaged (file : Bytes)

/-- The constructor of the engine, which may reject its draft model after the corpus was opened. -/
def LookupEngine.opened (engine : LookupEngine K) (file : Bytes) : World K :=
  let corpus := CorpusIndex.load corpusConfig file
  match (engine.decoder corpus).construct with
  | .ok members => .serving ⟨engine, members, ⟨[], 0⟩, corpus⟩
  | .error _ => .shut corpus.flush.file

namespace Life

variable (life : Life K)

/-- A call of the decoder. -/
def call (gen : GenerationConfig K) (callback : TokenCallback) : Call K :=
  ⟨life.engine.lib, life.engine.decoder life.corpus, gen, callback⟩

/-- The tokens of a prompt. -/
def tokens (prompt : Bytes) : List TokenId := life.engine.target.tokenize prompt true

/-- What a generation leaves behind. -/
def after (result : StreamResult) : Life K :=
  { life with
    members := result.self
    draftState := result.draftState
    corpus := match result.observed with
      | some tokens => life.corpus.observe corpusConfig tokens
      | none => life.corpus }

/-- A generation; `none` when the fuel runs out. -/
def generate (prompt : Bytes) (gen : GenerationConfig K) (callback : TokenCallback) (fuel : ℕ) :
    Option (Life K) :=
  ((life.call gen callback).generateStream fuel life.members life.draftState
    (life.tokens prompt)).map life.after

end Life

/-- One event, if it can happen. -/
def World.apply : World K → Event K → Option (World K)
  | .shut file, .opens engine => some (engine.opened file)
  | .shut _, .damaged file => some (.shut file)
  | .serving life, .generates prompt gen callback fuel =>
      (life.generate prompt gen callback fuel).map .serving
  | .serving life, .closes => some (.shut life.corpus.flush.file)
  | .serving life, .killed => some (.shut life.corpus.file)
  | _, _ => none

/-- A sequence of events. -/
def World.run (world : World K) (events : List (Event K)) : Option (World K) :=
  events.foldlM World.apply world

/-! ## The condition -/

/-- What a corpus would recall from the file to tokens of the model are tokens of the model. -/
def LookupEngine.Fits (engine : LookupEngine K) (file : Bytes) : Prop :=
  Closed engine.target.InVocab corpusConfig.ngram (CorpusIndex.load corpusConfig file).streams

/-- In the sequence of events every engine is opened on a file that fits it. -/
def OpensFit : World K → List (Event K) → Prop
  | _, [] => True
  | world, event :: later =>
      (∀ engine file, event = .opens engine → world = .shut file → engine.Fits file) ∧
        ∀ world', world.apply event = some world' → OpensFit world' later

/-- The vocabularies of the engines that are opened. -/
def openedVocabs (events : List (Event K)) : List ℕ :=
  events.filterMap fun
    | .opens engine => some engine.target.vocabSize
    | _ => none

/-- The file is not damaged, and no engine has a smaller vocabulary than one before it;
`vocab_size()` is an `int`. -/
structure NeverShrinks (events : List (Event K)) : Prop where
  undamaged : ∀ file, .damaged file ∉ events
  sorted : (openedVocabs events).Pairwise (· ≤ ·)
  int : ∀ size ∈ openedVocabs events, size < 2 ^ 31

/-! ## Every generation is in bounds -/

theorem maxTokens_corpusConfig : corpusConfig.maxTokens = 2 ^ 24 := by decide

/-- The corpus of an open engine recalls tokens of its model. -/
def Sound : World K → Prop
  | .shut _ => True
  | .serving life =>
      TokenizesInVocab life.engine.target ∧
        life.corpus.Recalls life.engine.target.InVocab corpusConfig

/-- An engine that is opened on a file that fits it is sound. -/
theorem LookupEngine.opened_sound {engine : LookupEngine K} {file : Bytes}
    (htokenizes : TokenizesInVocab engine.target) (hfits : engine.Fits file) :
    Sound (engine.opened file) := by
  rw [opened]
  split
  · exact ⟨htokenizes, .load hfits⟩
  · trivial

/-- What a generation shows to the corpus are tokens of the model. -/
theorem Life.generate_observed {life life' : Life K} {prompt : Bytes} {gen : GenerationConfig K}
    {callback : TokenCallback} {fuel : ℕ} (htokenizes : TokenizesInVocab life.engine.target)
    (hgenerate : life.generate prompt gen callback fuel = some life') :
    life'.engine = life.engine ∧ (life'.corpus = life.corpus ∨ ∃ tokens,
      (∀ t ∈ tokens, life.engine.target.InVocab t) ∧
        life'.corpus = life.corpus.observe corpusConfig tokens) := by
  obtain ⟨result, hrun, rfl⟩ := Option.map_eq_some_iff.mp hgenerate
  have hobserved := Call.observed_inVocab rfl (htokenizes prompt true) hrun
  refine ⟨rfl, ?_⟩
  cases hresult : result.observed with
  | none => exact .inl (by simp [after, hresult])
  | some tokens =>
      rw [hresult] at hobserved
      exact .inr ⟨tokens, hobserved tokens rfl, by simp [after, hresult]⟩

/-- One event keeps the world sound. -/
theorem Sound.apply {world world' : World K} {event : Event K} (hsound : Sound world)
    (htokenizes : ∀ engine, event = .opens engine → TokenizesInVocab engine.target)
    (hfits : ∀ engine file, event = .opens engine → world = .shut file → engine.Fits file)
    (happly : world.apply event = some world') : Sound world' := by
  cases world with
  | shut file =>
      cases event with
      | opens engine =>
          cases happly
          exact engine.opened_sound (htokenizes engine rfl) (hfits engine file rfl rfl)
      | damaged =>
          cases happly
          trivial
      | generates => cases happly
      | closes => cases happly
      | killed => cases happly
  | serving life =>
      obtain ⟨hmodel, hrecalls⟩ := hsound
      cases event with
      | generates prompt gen callback fuel =>
          obtain ⟨life', hgenerate, rfl⟩ := Option.map_eq_some_iff.mp happly
          obtain ⟨hengine, hcorpus⟩ := life.generate_observed hmodel hgenerate
          rw [Sound, hengine]
          refine ⟨hmodel, ?_⟩
          rcases hcorpus with hcorpus | ⟨tokens, htokens, hcorpus⟩
          · rw [hcorpus]
            exact hrecalls
          · rw [hcorpus]
            exact hrecalls.observe htokens
      | closes =>
          cases happly
          trivial
      | killed =>
          cases happly
          trivial
      | opens => cases happly
      | damaged => cases happly

theorem World.run_cons {world world' : World K} {event : Event K} {later : List (Event K)}
    (hrun : world.run (event :: later) = some world') :
    ∃ next, world.apply event = some next ∧ next.run later = some world' := by
  rw [run, List.foldlM_cons] at hrun
  exact Option.bind_eq_some_iff.mp hrun

/-- A sequence of events keeps the world sound. -/
theorem Sound.run {world world' : World K} {events : List (Event K)} (hsound : Sound world)
    (htokenizes : ∀ engine, .opens engine ∈ events → TokenizesInVocab engine.target)
    (hfits : OpensFit world events) (hrun : world.run events = some world') : Sound world' := by
  induction events generalizing world with
  | nil =>
      cases hrun
      exact hsound
  | cons event later ih =>
      obtain ⟨next, happly, hlater⟩ := World.run_cons hrun
      have hnext := hsound.apply
        (fun engine hevent => htokenizes engine (hevent ▸ List.mem_cons_self)) hfits.1 happly
      exact ih hnext (fun engine hmem => htokenizes engine (List.mem_cons_of_mem _ hmem))
        (hfits.2 next happly) hlater

/-- Generations of a sound engine are in bounds. -/
theorem Sound.lookupInBounds {life : Life K} (hsound : Sound (.serving life)) {prompt : Bytes}
    {gen : GenerationConfig K} {callback : TokenCallback}
    (hcheck : (life.call gen callback).checkPrompt (life.tokens prompt) = .ok ()) :
    (life.call gen callback).LookupInBounds (archiveOf life.corpus) life.members life.draftState
      (life.tokens prompt) := by
  obtain ⟨hmodel, hrecalls⟩ := hsound
  have hprompt : ∀ t ∈ life.tokens prompt,
      (life.call gen callback).decoder.target.InVocab t := hmodel prompt true
  refine Call.lookupInBounds_of_archive rfl rfl ?_ hmodel (Call.checkPrompt_ok_iff.mp hcheck).1
    hprompt _ _
  intro history hhistory k
  exact hrecalls.draft (by decide) (by rw [maxTokens_corpusConfig]; norm_num) hhistory k

/-! ## Vocabularies that never shrink -/

/-- Streams as a file has them between two lives, with tokens below a bound. -/
structure Kept (vocab : ℕ) (streams : List (List TokenId)) : Prop where
  ne_nil : ∀ s ∈ streams, s ≠ []
  below : ∀ s ∈ streams, ∀ t ∈ s, 0 ≤ t ∧ t < vocab
  fits : Retention.total List.length streams ≤ corpusConfig.maxTokens

/-- All tokens in the directory are below a bound. -/
def Bounded (vocab : ℕ) : World K → Prop
  | .shut file => ∃ streams, file = frames streams ∧ Kept vocab streams
  | .serving life =>
      TokenizesInVocab life.engine.target ∧ life.engine.target.vocabSize ≤ vocab ∧
        ∃ streams, CorpusIndex.Represents corpusConfig life.corpus streams ∧ Kept vocab streams

theorem Kept.mono {vocab vocab' : ℕ} {streams : List (List TokenId)} (hkept : Kept vocab streams)
    (hle : vocab ≤ vocab') : Kept vocab' streams :=
  ⟨hkept.ne_nil, fun s hs t ht =>
    ⟨(hkept.below s hs t ht).1, lt_of_lt_of_le (hkept.below s hs t ht).2 (Int.ofNat_le.mpr hle)⟩,
    hkept.fits⟩

theorem isInt32_of_below {vocab : ℕ} (hvocab : vocab < 2 ^ 31) {t : TokenId}
    (ht : 0 ≤ t ∧ t < vocab) : IsInt32 t := by
  have hbound : (vocab : ℤ) < 2 ^ 31 := by exact_mod_cast hvocab
  exact ⟨le_trans (by norm_num) ht.1, ht.2.trans hbound⟩

/-- Such a file is loaded as it is. -/
theorem Kept.load {vocab : ℕ} {streams : List (List TokenId)} (hkept : Kept vocab streams)
    (hvocab : vocab < 2 ^ 31) :
    CorpusIndex.Represents corpusConfig (CorpusIndex.load corpusConfig (frames streams))
      streams := by
  have hbudget := hkept.fits
  have hload := @CorpusIndex.load_frames corpusConfig streams hkept.ne_nil ?_ ?_
  · rwa [Retention.fit_of_le hbudget] at hload
  · exact fun s hs t ht => isInt32_of_below hvocab (hkept.below s hs t ht)
  · intro s hs
    rw [maxTokens_corpusConfig] at hbudget
    have hone : s.length ≤ Retention.total List.length streams :=
      List.single_le_sum (by simp) _ (List.mem_map_of_mem hs)
    omega

/-- A file of tokens that an engine has fits it, and stays bounded when the engine is opened. -/
theorem LookupEngine.opened_bounded {engine : LookupEngine K} {vocab : ℕ} {file : Bytes}
    (hbounded : Bounded (K := K) vocab (.shut file)) (hle : vocab ≤ engine.target.vocabSize)
    (hint : engine.target.vocabSize < 2 ^ 31) (htokenizes : TokenizesInVocab engine.target) :
    engine.Fits file ∧ Bounded engine.target.vocabSize (engine.opened file) := by
  obtain ⟨streams, rfl, hkept⟩ := hbounded
  have hkept' := hkept.mono hle
  have hrep := hkept'.load hint
  refine ⟨?_, ?_⟩
  · rw [Fits, hrep.streams_eq]
    exact .of_forall hkept'.below
  · rw [opened]
    split
    · exact ⟨htokenizes, le_rfl, streams, hrep, hkept'⟩
    · exact ⟨streams, hrep.flush.2, hkept'⟩

/-- Observing tokens below the bound. -/
theorem Kept.observe {vocab : ℕ} {streams : List (List TokenId)} (hkept : Kept vocab streams)
    {tokens : List TokenId} (hne : tokens ≠ []) (htokens : ∀ t ∈ tokens, 0 ≤ t ∧ t < vocab) :
    Kept vocab (Retention.fit List.length corpusConfig.maxTokens (streams ++ [tokens])) := by
  have hsubset : Retention.fit List.length corpusConfig.maxTokens (streams ++ [tokens]) ⊆
      streams ++ [tokens] := (Retention.fit_suffix _).subset
  refine ⟨fun s hs => ?_, fun s hs => ?_, Retention.total_fit_le _⟩
  · rcases List.mem_append.mp (hsubset hs) with hs | hs
    · exact hkept.ne_nil s hs
    · rw [List.mem_singleton.mp hs]
      exact hne
  · rcases List.mem_append.mp (hsubset hs) with hs | hs
    · exact hkept.below s hs
    · rw [List.mem_singleton.mp hs]
      exact htokens

/-- One event that neither damages the file nor opens an engine keeps the bound. -/
theorem Bounded.apply {vocab : ℕ} {world world' : World K} {event : Event K}
    (hbounded : Bounded vocab world) (hint : vocab < 2 ^ 31)
    (hquiet : ∀ engine, event ≠ .opens engine) (hundamaged : ∀ file, event ≠ .damaged file)
    (happly : world.apply event = some world') : Bounded vocab world' := by
  cases world with
  | shut file =>
      cases event with
      | opens engine => exact absurd rfl (hquiet engine)
      | damaged file => exact absurd rfl (hundamaged file)
      | generates => cases happly
      | closes => cases happly
      | killed => cases happly
  | serving life =>
      obtain ⟨hmodel, hle, streams, hrep, hkept⟩ := hbounded
      cases event with
      | generates prompt gen callback fuel =>
          obtain ⟨life', hgenerate, rfl⟩ := Option.map_eq_some_iff.mp happly
          obtain ⟨hengine, hcorpus⟩ := life.generate_observed hmodel hgenerate
          rw [Bounded, hengine]
          refine ⟨hmodel, hle, ?_⟩
          rcases hcorpus with hcorpus | ⟨tokens, htokens, hcorpus⟩
          · exact ⟨streams, hcorpus ▸ hrep, hkept⟩
          · by_cases hempty : tokens = []
            · rw [CorpusIndex.observe, if_pos hempty] at hcorpus
              exact ⟨streams, hcorpus ▸ hrep, hkept⟩
            · have hbelow : ∀ t ∈ tokens, 0 ≤ t ∧ t < vocab := fun t ht =>
                ⟨(htokens t ht).1, lt_of_lt_of_le (htokens t ht).2 (Int.ofNat_le.mpr hle)⟩
              rw [hcorpus]
              exact ⟨_, hrep.observe hempty fun t ht => isInt32_of_below hint (hbelow t ht),
                hkept.observe hempty hbelow⟩
      | closes =>
          cases happly
          exact ⟨streams, hrep.flush.2, hkept⟩
      | killed =>
          cases happly
          -- What was not flushed is lost.
          have hsubset := List.take_subset life.corpus.flushedStreams streams
          refine ⟨_, hrep.file_eq, fun s hs => hkept.ne_nil s (hsubset hs),
            fun s hs => hkept.below s (hsubset hs), ?_⟩
          exact le_trans (List.Sublist.sum_le_sum ((List.take_sublist _ _).map _) (by simp))
            hkept.fits
      | opens engine => exact absurd rfl (hquiet engine)
      | damaged file => exact absurd rfl (hundamaged file)

theorem openedVocabs_quiet {event : Event K} (hquiet : ∀ engine, event ≠ .opens engine)
    (later : List (Event K)) : openedVocabs (event :: later) = openedVocabs later := by
  cases event with
  | opens engine => exact absurd rfl (hquiet engine)
  | generates => rfl
  | closes => rfl
  | killed => rfl
  | damaged => rfl

theorem NeverShrinks.tail {event : Event K} {later : List (Event K)}
    (hshrinks : NeverShrinks (event :: later)) : NeverShrinks later := by
  have hsublist : (openedVocabs later).Sublist (openedVocabs (event :: later)) :=
    (List.sublist_cons_self event later).filterMap _
  exact ⟨fun file hmem => hshrinks.undamaged file (List.mem_cons_of_mem _ hmem),
    hshrinks.sorted.sublist hsublist, fun size hsize => hshrinks.int size (hsublist.subset hsize)⟩

/-- When the vocabularies never shrink every engine is opened on a file that fits it. -/
theorem Bounded.opensFit {vocab : ℕ} {world : World K} {events : List (Event K)}
    (hbounded : Bounded vocab world) (hint : vocab < 2 ^ 31) (hshrinks : NeverShrinks events)
    (habove : ∀ size ∈ openedVocabs events, vocab ≤ size)
    (htokenizes : ∀ engine, .opens engine ∈ events → TokenizesInVocab engine.target) :
    OpensFit world events := by
  -- The bound is the vocabulary of the engine that was opened last.
  induction events generalizing world vocab with
  | nil => trivial
  | cons event later ih =>
      have hlater : ∀ engine, .opens engine ∈ later → TokenizesInVocab engine.target :=
        fun engine hmem => htokenizes engine (List.mem_cons_of_mem _ hmem)
      by_cases hopens : ∃ engine, event = .opens engine
      · obtain ⟨engine, rfl⟩ := hopens
        have hvocabs : openedVocabs (.opens engine :: later) =
            engine.target.vocabSize :: openedVocabs later := rfl
        have hsorted := hshrinks.sorted
        have hsize := hshrinks.int engine.target.vocabSize (hvocabs ▸ List.mem_cons_self)
        have hle := habove engine.target.vocabSize (hvocabs ▸ List.mem_cons_self)
        rw [hvocabs, List.pairwise_cons] at hsorted
        cases world with
        | serving life => exact ⟨by rintro _ _ - ⟨⟩, by rintro _ ⟨⟩⟩
        | shut file =>
            obtain ⟨hfits, hopened⟩ := LookupEngine.opened_bounded hbounded hle hsize
              (htokenizes engine List.mem_cons_self)
            refine ⟨?_, ?_⟩
            · rintro _ _ ⟨⟩ ⟨⟩
              exact hfits
            · rintro _ ⟨⟩
              exact ih hopened hsize hshrinks.tail hsorted.1 hlater
      · have hquiet : ∀ engine, event ≠ .opens engine := fun engine heq => hopens ⟨engine, heq⟩
        rw [openedVocabs_quiet hquiet] at habove
        refine ⟨fun engine _ heq => absurd heq (hquiet engine), fun world' happly => ?_⟩
        have hundamaged : ∀ file, event ≠ .damaged file :=
          fun file heq => hshrinks.undamaged file (heq ▸ List.mem_cons_self)
        exact ih (hbounded.apply hint hquiet hundamaged happly) hint hshrinks.tail habove hlater

/-! ## Runs -/

/-- Over any sequence of lives that share a cache directory: when each engine is opened on a file
that fits it, every draft of every generation is in bounds; and when the vocabularies never shrink
and nothing else writes the file, that is so. -/
theorem archive_drafts_in_vocab {events : List (Event K)}
    (htokenizes : ∀ engine, .opens engine ∈ events → TokenizesInVocab engine.target) :
    (OpensFit (.shut []) events → ∀ life, (World.shut []).run events = some (.serving life) →
      ∀ prompt gen callback,
        (life.call gen callback).checkPrompt (life.tokens prompt) = .ok () →
          (life.call gen callback).LookupInBounds (archiveOf life.corpus) life.members
            life.draftState (life.tokens prompt)) ∧
      (NeverShrinks events → OpensFit (.shut []) events) := by
  have hsound : Sound (.shut [] : World K) := trivial
  have hempty : Bounded 0 (.shut [] : World K) := ⟨[], rfl, by simp, by simp, Nat.zero_le _⟩
  refine ⟨fun hfits life hrun prompt gen callback hcheck => ?_, fun hshrinks => ?_⟩
  · exact (hsound.run htokenizes hfits hrun).lookupInBounds hcheck
  · exact hempty.opensFit (by norm_num) hshrinks (fun _ _ => Nat.zero_le _) htokenizes

/-! ## A vocabulary that shrinks -/

/-- An engine whose model has some tokens, prefers one of them, and reads every text as
`0, 1, 2`. -/
def readingEngine (vocab favourite : ℕ) (hfavourite : favourite < vocab) : LookupEngine ℚ where
  lib := .rational
  target := { Call.preferring 8 vocab favourite (Nat.zero_lt_of_lt hfavourite) with
    tokenize := fun _ _ => [0, 1, 2] }
  draft := none
  config :=
    { mode := .modelDraft
      draftTokens := 16
      minDraftTokens := 2
      maxDraftTokens := 32
      lookupMaxNgram := 3
      lookupMinNgram := 1
      corpus := none
      useSpeculative := true
      disableAfterDrafted := 64
      disableBelowAcceptance := 15 / 100 }

theorem readingEngine_tokenizes {vocab favourite : ℕ} (hfavourite : favourite < vocab)
    (hvocab : 3 ≤ vocab) : TokenizesInVocab (readingEngine vocab favourite hfavourite).target := by
  intro text special t ht
  have hlow : t = 0 ∨ t = 1 ∨ t = 2 := by simpa [readingEngine] using ht
  have hle : (3 : ℤ) ≤ vocab := by exact_mod_cast hvocab
  change 0 ≤ t ∧ t < (vocab : ℤ)
  rcases hlow with rfl | rfl | rfl
  · exact ⟨by norm_num, by linarith⟩
  · exact ⟨by norm_num, by linarith⟩
  · exact ⟨by norm_num, by linarith⟩

/-- A greedy generation of one token. -/
def oneToken : GenerationConfig ℚ where
  maxTokens := 1
  temperature := 0
  topP := 1
  repeatPenalty := 1
  repeatLastN := 0
  seed := 42
  echoPrompt := false

/-- Two lives, with a generation in the first. -/
def twoLives (first second : LookupEngine ℚ) : List (Event ℚ) :=
  [.opens first, .generates [] oneToken (fun _ => .keepGoing) 3, .closes, .opens second]

theorem twoLives_tokenizes {first second : LookupEngine ℚ} (hfirst : TokenizesInVocab first.target)
    (hsecond : TokenizesInVocab second.target) :
    ∀ engine, .opens engine ∈ twoLives first second → TokenizesInVocab engine.target := by
  intro engine hmem
  rcases List.mem_cons.mp hmem with heq | hmem
  · cases heq
    exact hfirst
  · have heq : engine = second := by simpa using hmem
    rw [heq]
    exact hsecond

/-- The engine that is open, if there is one. -/
def World.life : World K → Option (Life K)
  | .shut _ => none
  | .serving life => some life

/-- A run that ends with an engine open, on which a generation of one token ends as given. -/
theorem exists_life {events : List (Event ℚ)} {exit : Exit}
    (hrun : (((World.shut []).run events).bind World.life).bind (fun life =>
        ((life.call oneToken fun _ => .keepGoing).generateStream 3 life.members life.draftState
          (life.tokens [])).map StreamResult.exit) = some exit) :
    ∃ life, (World.shut []).run events = some (.serving life) ∧
      ∃ result, (life.call oneToken fun _ => .keepGoing).generateStream 3 life.members
        life.draftState (life.tokens []) = some result ∧ result.exit = exit := by
  obtain ⟨life, hlife, hresult⟩ := Option.bind_eq_some_iff.mp hrun
  obtain ⟨world, hworld, hserving⟩ := Option.bind_eq_some_iff.mp hlife
  obtain ⟨result, hgenerate, hexit⟩ := Option.map_eq_some_iff.mp hresult
  cases world with
  | shut file => cases hserving
  | serving life' =>
      cases hserving
      exact ⟨life, hworld, result, hgenerate, hexit⟩

/-- A model with one token more opens the corpus of a smaller one: the generation goes through. -/
theorem growing_vocab_in_bounds :
    ∃ life, (World.shut []).run (twoLives (readingEngine 3 0 (by decide))
        (readingEngine 4 3 (by decide))) = some (.serving life) ∧
      (life.call oneToken fun _ => .keepGoing).LookupInBounds (archiveOf life.corpus) life.members
        life.draftState (life.tokens []) := by
  obtain ⟨life, hrun, result, hgenerate, hexit⟩ := @exists_life (twoLives
    (readingEngine 3 0 (by decide)) (readingEngine 4 3 (by decide))) .returned (by decide +kernel)
  have htokenizes := twoLives_tokenizes (readingEngine_tokenizes (by decide : 0 < 3) le_rfl)
    (readingEngine_tokenizes (by decide : 3 < 4) (Nat.le_succ 3))
  obtain ⟨hbounds, hfits⟩ := archive_drafts_in_vocab htokenizes
  refine ⟨life, hrun, hbounds (hfits ⟨by simp [twoLives], ?_, ?_⟩) life hrun [] oneToken _ ?_⟩
  · change [3, 4].Pairwise (· ≤ ·)
    decide
  · change ∀ size ∈ [3, 4], size < 2 ^ 31
    decide
  · rw [Call.generateStream] at hgenerate
    cases hcheck : (life.call oneToken fun _ => .keepGoing).checkPrompt (life.tokens []) with
    | ok _ => rfl
    | error fault =>
        rw [hcheck] at hgenerate
        cases hgenerate
        cases hexit

/-- A model with one token less opens the corpus of a larger one, is proposed the token it does not
have, and writes its one-hot out of bounds. -/
theorem shrinking_vocab_out_of_bounds :
    let lives := twoLives (readingEngine 4 3 (by decide)) (readingEngine 3 0 (by decide))
    (∀ engine, .opens engine ∈ lives → TokenizesInVocab engine.target) ∧
      ∃ life, (World.shut []).run lives = some (.serving life) ∧
        ∃ result, (life.call oneToken fun _ => .keepGoing).generateStream 3 life.members
            life.draftState (life.tokens []) = some result ∧
          result.exit = .threw .outOfBounds ∧
          ¬ (life.call oneToken fun _ => .keepGoing).LookupInBounds (archiveOf life.corpus)
            life.members life.draftState (life.tokens []) := by
  intro lives
  obtain ⟨life, hrun, result, hgenerate, hexit⟩ :=
    @exists_life lives (.threw .outOfBounds) (by decide +kernel)
  refine ⟨twoLives_tokenizes (readingEngine_tokenizes (by decide : 3 < 4) (Nat.le_succ 3))
    (readingEngine_tokenizes (by decide : 0 < 3) le_rfl), life, hrun, result, hgenerate, hexit,
    fun hbounds => hbounds.exit rfl hgenerate hexit⟩

end Reame.Engine
