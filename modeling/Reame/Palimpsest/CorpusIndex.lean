import Reame.Core.Backend
import Reame.Foundation.Incremental
import Reame.Foundation.LittleEndian
import Reame.Foundation.Retention

/-!
# The generation memory

`CorpusIndex`: a flat log of every token stream the server has produced, the ends of the
streams in it, and an index from the hash of an n-gram to the offsets that followed it.
The log is kept within a byte budget by dropping the oldest streams, and it is written to
`corpus.log` as frames, a 32-bit length and the raw tokens, appended by `flush` and
rewritten after an eviction.

The content of the file is part of the state; a missing file and an empty one load alike.
The directory is left out, and `ngram` and `max_sites_per_ngram`, `int` in the source, are
natural numbers.
-/

namespace Reame.Palimpsest

open Incremental (Step Settled Parser)

/-- A value of the source's `TokenId`, a 32-bit integer. -/
def IsInt32 (t : TokenId) : Prop := -2 ^ 31 ≤ t ∧ t < 2 ^ 31

instance (t : TokenId) : Decidable (IsInt32 t) := inferInstanceAs (Decidable (_ ∧ _))

/-! ## Tokens and frames as bytes -/

/-- The four bytes of a token in memory and in the file. -/
def tokenBytes (t : TokenId) : Bytes := LittleEndian.bytes 4 (t % 2 ^ 32).toNat

/-- The token in four bytes. -/
def tokenOf (word : Bytes) : TokenId := toInt32 (LittleEndian.value word)

/-- One `write` of a frame: the length, converted to 32 bits, and that many tokens. -/
def frame (stream : List TokenId) : Bytes :=
  LittleEndian.bytes 4 stream.length ++
    (stream.take (stream.length % 2 ^ 32)).flatMap tokenBytes

/-- The tokens at the front of a buffer. -/
def readTokens : ℕ → Bytes → List TokenId
  | 0, _ => []
  | len + 1, data => tokenOf (data.take 4) :: readTokens len (data.drop 4)

/-- One round of `load`: a short read ends it, and so does an implausible length. -/
def readFrame (data : Bytes) : Step UInt8 (List TokenId) Unit :=
  if data.length < 4 then .more
  else
    let len := LittleEndian.value (data.take 4)
    if len = 0 ∨ 2 ^ 26 < len then .reject ()
    else if (data.drop 4).length < len * 4 then .more
    else .item (readTokens len (data.drop 4)) ((data.drop 4).drop (len * 4))

/-- `ngram_key`: FNV-1a over the bytes of the tokens. -/
def ngramKey (tokens : List TokenId) : UInt64 :=
  tokens.foldl (fun hash t =>
    (tokenBytes t).foldl (fun hash b => (hash ^^^ b.toUInt64) * 0x100000001b3) hash)
    0xcbf29ce484222325

/-! ## The state -/

/-- `CorpusIndex::Config`. -/
structure CorpusConfig where
  ngram : ℕ := 3
  maxLogBytes : ℕ := 64 * 2 ^ 20
  maxSitesPerNgram : ℕ := 8
deriving DecidableEq, Repr

/-- `max_tokens`. -/
def CorpusConfig.maxTokens (config : CorpusConfig) : ℕ := config.maxLogBytes / 4

/-- `CorpusIndex::Impl`, and the file behind it. -/
structure CorpusIndex where
  log : List TokenId := []
  streamEnds : List ℕ := []
  flushedStreams : ℕ := 0
  index : UInt64 → List ℕ := fun _ => []
  file : Bytes := []

namespace CorpusIndex

variable (config : CorpusConfig) (corpus : CorpusIndex)

/-- `stream_end_for`: the first stream end above the offset. -/
def streamEndFor (offset : ℕ) : ℕ :=
  (corpus.streamEnds.find? fun streamEnd => offset < streamEnd).getD corpus.log.length

/-- The body of the loop of `index_stream`: offsets are stored in 32 bits. -/
def addSite (index : UInt64 → List ℕ) (i : ℕ) : UInt64 → List ℕ :=
  Retention.insertCapped config.maxSitesPerNgram index
    (ngramKey ((corpus.log.drop i).take config.ngram), (i + config.ngram) % 2 ^ 32)

/-- `index_stream`. -/
def indexStream (first last : ℕ) : CorpusIndex :=
  if last - first < config.ngram + 1 then corpus
  else
    { corpus with
      index := (List.range' first (last - config.ngram - first)).foldl
        (corpus.addSite config) corpus.index }

/-- `rebuild_index`. -/
def rebuildIndex : CorpusIndex :=
  (corpus.streamEnds.foldl (fun (state : CorpusIndex × ℕ) streamEnd =>
    (state.1.indexStream config state.2 streamEnd, streamEnd))
    ({ corpus with index := fun _ => [] }, 0)).1

/-- The loop that writes frames: the streams with the given ends, the first of them
starting at `first`. -/
def framesFrom (log : List TokenId) : ℕ → List ℕ → Bytes
  | _, [] => []
  | first, streamEnd :: later =>
      frame ((log.drop first).take (streamEnd - first)) ++ framesFrom log streamEnd later

/-- `rewrite_file`. -/
def rewriteFile : CorpusIndex :=
  { corpus with
    file := framesFrom corpus.log 0 corpus.streamEnds
    flushedStreams := corpus.streamEnds.length }

/-- The loop of `evict_oldest`: how many streams to drop, and how many tokens. -/
def evictCount (logSize maxTokens : ℕ) : List ℕ → ℕ → ℕ × ℕ
  | [], dropTokens => (0, dropTokens)
  | streamEnd :: later, dropTokens =>
      if maxTokens < logSize - dropTokens then
        let dropped := evictCount logSize maxTokens later streamEnd
        (dropped.1 + 1, dropped.2)
      else (0, dropTokens)

/-- `evict_oldest`. -/
def evictOldest : CorpusIndex :=
  let dropped := evictCount corpus.log.length config.maxTokens corpus.streamEnds 0
  let rest : CorpusIndex :=
    { corpus with
      log := corpus.log.drop dropped.2
      streamEnds := (corpus.streamEnds.drop dropped.1).map (· - dropped.2) }
  (rest.rebuildIndex config).rewriteFile

/-- The check that ends `observe` and `load`. -/
def enforceBudget : CorpusIndex :=
  if config.maxTokens < corpus.log.length then corpus.evictOldest config else corpus

/-- Append a stream to the log and index it. -/
def append (tokens : List TokenId) : CorpusIndex :=
  let first := corpus.log.length
  let longer : CorpusIndex :=
    { corpus with
      log := corpus.log ++ tokens
      streamEnds := corpus.streamEnds ++ [(corpus.log ++ tokens).length] }
  longer.indexStream config first longer.log.length

/-- `observe`. -/
def observe (tokens : List TokenId) : CorpusIndex :=
  if tokens = [] then corpus else (corpus.append config tokens).enforceBudget config

/-- The body of the loop of `draft`: a site yields a continuation when its stream goes on
after it and the n-gram before it is really the one asked for. -/
def draftAt (tail : List TokenId) (k : ℕ) (start : ℕ) : Option (List TokenId) :=
  let streamEnd := corpus.streamEndFor (start - 1)
  if streamEnd ≤ start then none
  else if tail.drop (tail.length - config.ngram) ≠
      (corpus.log.drop (start - config.ngram)).take config.ngram then none
  else some ((corpus.log.drop start).take (min (streamEnd - start) k))

/-- `draft`. -/
def draft (tail : List TokenId) (k : ℤ) : List TokenId :=
  if k ≤ 0 ∨ tail.length < config.ngram then []
  else
    let sites := corpus.index (ngramKey (tail.drop (tail.length - config.ngram)))
    (sites.reverse.findSome? (corpus.draftAt config tail k.toNat)).getD []

/-- The part of `flush` that writes: the frames of the streams that are not in the file. -/
def unflushed : Bytes :=
  framesFrom corpus.log
    (if corpus.flushedStreams = 0 then 0 else corpus.streamEnds.getD (corpus.flushedStreams - 1) 0)
    (corpus.streamEnds.drop corpus.flushedStreams)

/-- `flush`, in append mode. -/
def flush : CorpusIndex :=
  if corpus.streamEnds.length ≤ corpus.flushedStreams then corpus
  else
    { corpus with
      file := corpus.file ++ corpus.unflushed
      flushedStreams := corpus.streamEnds.length }

end CorpusIndex

/-! ## Opening a file -/

/-- Tokens that are there do not depend on what follows. -/
theorem readTokens_append {len : ℕ} {data : Bytes} (hlen : len * 4 ≤ data.length) (later : Bytes) :
    readTokens len (data ++ later) = readTokens len data := by
  induction len generalizing data with
  | zero => rfl
  | succ len ih =>
      rw [readTokens, readTokens, List.take_append_of_le_length (by omega),
        List.drop_append_of_le_length (by omega), ih (by rw [List.length_drop]; omega)]

/-- When a round of `load` yields a stream. -/
theorem readFrame_item_iff {data : Bytes} {stream : List TokenId} {rest : Bytes} :
    readFrame data = .item stream rest ↔
      4 ≤ data.length ∧
        ∃ len, LittleEndian.value (data.take 4) = len ∧ 0 < len ∧ len ≤ 2 ^ 26 ∧
          len * 4 ≤ (data.drop 4).length ∧ stream = readTokens len (data.drop 4) ∧
          rest = (data.drop 4).drop (len * 4) := by
  rw [readFrame]
  by_cases hshort : data.length < 4
  · simp [hshort]
  · rw [if_neg hshort]
    by_cases hlen : LittleEndian.value (data.take 4) = 0 ∨ 2 ^ 26 < LittleEndian.value (data.take 4)
    · simp only [if_pos hlen, reduceCtorEq, false_iff, not_and, not_exists]
      rintro - _ rfl hpos hle
      omega
    · simp only [if_neg hlen]
      by_cases hbody : (data.drop 4).length < LittleEndian.value (data.take 4) * 4
      · simp only [if_pos hbody, reduceCtorEq, false_iff, not_and, not_exists]
        rintro - _ rfl - - hle
        omega
      · simp only [if_neg hbody, Step.item.injEq]
        constructor
        · rintro ⟨rfl, rfl⟩
          exact ⟨by omega, _, rfl, by omega, by omega, by omega, rfl, rfl⟩
        · rintro ⟨-, _, rfl, -, -, -, rfl, rfl⟩
          exact ⟨rfl, rfl⟩

/-- When a round of `load` gives up on an implausible length. -/
theorem readFrame_reject_iff {data : Bytes} {error : Unit} :
    readFrame data = .reject error ↔
      4 ≤ data.length ∧
        (LittleEndian.value (data.take 4) = 0 ∨ 2 ^ 26 < LittleEndian.value (data.take 4)) := by
  rw [readFrame]
  by_cases hshort : data.length < 4
  · simp [hshort]
  · rw [if_neg hshort]
    by_cases hlen : LittleEndian.value (data.take 4) = 0 ∨ 2 ^ 26 < LittleEndian.value (data.take 4)
    · rw [if_pos hlen]
      exact ⟨fun _ => ⟨by omega, hlen⟩, fun _ => rfl⟩
    · rw [if_neg hlen]
      refine ⟨fun hreject => ?_, fun hboth => absurd hboth.2 hlen⟩
      split at hreject <;> cases hreject

/-- `load` reads a file frame by frame. -/
def frameParser : Parser UInt8 (List TokenId) Unit where
  parse := readFrame
  settled := {
    item_le := by
      intro data stream rest hitem
      obtain ⟨-, len, -, -, -, -, -, rfl⟩ := readFrame_item_iff.mp hitem
      simp only [List.length_drop]
      omega
    item_append := by
      intro data stream rest hitem later
      obtain ⟨hword, len, hlen, hpos, hmax, hbody, rfl, rfl⟩ := readFrame_item_iff.mp hitem
      refine readFrame_item_iff.mpr ⟨by rw [List.length_append]; omega, len, ?_, hpos, hmax, ?_⟩
      · rwa [List.take_append_of_le_length hword]
      · rw [List.drop_append_of_le_length hword]
        refine ⟨by rw [List.length_append]; omega, (readTokens_append hbody later).symm, ?_⟩
        rw [List.drop_append_of_le_length hbody]
    reject_append := by
      intro data error hreject later
      obtain ⟨hword, hlen⟩ := readFrame_reject_iff.mp hreject
      refine readFrame_reject_iff.mpr ⟨by rw [List.length_append]; omega, ?_⟩
      rwa [List.take_append_of_le_length hword] }
  item_lt := by
    intro data stream rest hitem
    obtain ⟨hword, len, -, -, -, -, -, rfl⟩ := readFrame_item_iff.mp hitem
    simp only [List.length_drop]
    omega

/-- The streams `load` reads from a file. -/
def readStreams (file : Bytes) : List (List TokenId) := (frameParser.drain file).items

namespace CorpusIndex

variable (config : CorpusConfig) (corpus : CorpusIndex)

/-- `load`, as called by the constructor. -/
def load (file : Bytes) : CorpusIndex :=
  let loaded : CorpusIndex :=
    (readStreams file).foldl (fun corpus stream => append config corpus stream) { file := file }
  enforceBudget config { loaded with flushedStreams := loaded.streamEnds.length }

/-- The destructor and the next constructor. -/
def reopen : CorpusIndex := load config corpus.flush.file

/-- What can be done with a corpus over the lives of its owners. -/
inductive Op
  | observe (tokens : List TokenId)
  | flush
  | reopen
deriving DecidableEq, Repr

/-- One operation. -/
def apply : Op → CorpusIndex
  | .observe tokens => corpus.observe config tokens
  | .flush => corpus.flush
  | .reopen => corpus.reopen config

/-- A sequence of operations. -/
def run (ops : List Op) : CorpusIndex := ops.foldl (fun corpus op => corpus.apply config op) corpus

end CorpusIndex

end Reame.Palimpsest
