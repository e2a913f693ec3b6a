import Reame.Palimpsest.CorpusIndex

/-!
# What the generation memory retains

A corpus *holds* a list of streams when its log is their concatenation, its ends are the
positions where they end, and its index has the most recent sites of every n-gram in them.
It *represents* them when, besides, they are within the budget and the file has the frames
of those that were flushed.  Every operation keeps this, and acts on the streams as `fit`
does: `Represents.run`.
-/

namespace Reame.Palimpsest

open Retention

/-! ## Frames -/

/-- `load` accepts the length word that was written for the stream. -/
def Loadable (stream : List TokenId) : Prop :=
  0 < stream.length % 2 ^ 32 ∧ stream.length % 2 ^ 32 ≤ 2 ^ 26

instance (stream : List TokenId) : Decidable (Loadable stream) := inferInstanceAs (Decidable (_ ∧ _))

/-- The file that has the frames of some streams. -/
def frames (streams : List (List TokenId)) : Bytes := streams.flatMap frame

@[simp] theorem frames_nil : frames [] = [] := rfl

theorem frames_cons (stream : List TokenId) (later : List (List TokenId)) :
    frames (stream :: later) = frame stream ++ frames later := rfl

theorem frames_append (streams later : List (List TokenId)) :
    frames (streams ++ later) = frames streams ++ frames later := List.flatMap_append

@[simp] theorem length_tokenBytes (t : TokenId) : (tokenBytes t).length = 4 := by
  simp [tokenBytes]

/-- A token survives being written and read. -/
theorem tokenOf_tokenBytes {t : TokenId} (ht : IsInt32 t) : tokenOf (tokenBytes t) = t := by
  obtain ⟨hlow, hhigh⟩ := ht
  have hword : ((LittleEndian.value (tokenBytes t) : ℕ) : ℤ) = t % ((2 ^ 32 : ℕ) : ℤ) := by
    rw [tokenBytes, LittleEndian.value_bytes]
    omega
  rw [tokenOf, hword, toInt32, Int.emod_bmod]
  exact toInt32_of_mem hlow hhigh

theorem length_flatMap_tokenBytes (tokens : List TokenId) :
    (tokens.flatMap tokenBytes).length = tokens.length * 4 := by
  induction tokens with
  | nil => rfl
  | cons t tokens ih =>
      rw [List.flatMap_cons, List.length_append, ih, length_tokenBytes, List.length_cons]
      omega

theorem readTokens_flatMap {tokens : List TokenId} (hint : ∀ t ∈ tokens, IsInt32 t)
    (later : Bytes) :
    readTokens tokens.length (tokens.flatMap tokenBytes ++ later) = tokens := by
  induction tokens with
  | nil => rfl
  | cons t tokens ih =>
      have htake : (tokenBytes t ++ (tokens.flatMap tokenBytes ++ later)).take 4 = tokenBytes t :=
        List.take_left' (length_tokenBytes t)
      have hdrop : (tokenBytes t ++ (tokens.flatMap tokenBytes ++ later)).drop 4 =
          tokens.flatMap tokenBytes ++ later :=
        List.drop_left' (length_tokenBytes t)
      rw [List.length_cons, List.flatMap_cons, List.append_assoc, readTokens, htake, hdrop,
        tokenOf_tokenBytes (hint t List.mem_cons_self),
        ih fun t' ht' => hint t' (List.mem_cons_of_mem t ht')]

/-- The length word of a frame. -/
theorem value_take_frame (stream : List TokenId) (later : Bytes) :
    LittleEndian.value ((frame stream ++ later).take 4) = stream.length % 2 ^ 32 := by
  rw [frame, List.append_assoc, List.take_left' (LittleEndian.length_bytes 4 _),
    LittleEndian.value_bytes]
  norm_num

theorem drop_frame (stream : List TokenId) (later : Bytes) :
    (frame stream ++ later).drop 4 =
      (stream.take (stream.length % 2 ^ 32)).flatMap tokenBytes ++ later := by
  rw [frame, List.append_assoc, List.drop_left' (LittleEndian.length_bytes 4 _)]

theorem length_frame (stream : List TokenId) :
    (frame stream).length = 4 + stream.length % 2 ^ 32 * 4 := by
  rw [frame, List.length_append, LittleEndian.length_bytes, length_flatMap_tokenBytes,
    List.length_take, Nat.min_eq_left (Nat.mod_le _ _)]

/-- Reading a frame that was written. -/
theorem readFrame_frame {stream : List TokenId} (hload : Loadable stream)
    (hint : ∀ t ∈ stream, IsInt32 t) (later : Bytes) :
    readFrame (frame stream ++ later) =
      .item (stream.take (stream.length % 2 ^ 32)) later := by
  have hlength : (stream.take (stream.length % 2 ^ 32)).length = stream.length % 2 ^ 32 := by
    rw [List.length_take, Nat.min_eq_left (Nat.mod_le _ _)]
  have hbody := length_flatMap_tokenBytes (stream.take (stream.length % 2 ^ 32))
  rw [hlength] at hbody
  refine readFrame_item_iff.mpr ⟨?_, _, value_take_frame stream later, hload.1, hload.2, ?_⟩
  · rw [List.length_append, length_frame]
    omega
  · rw [drop_frame]
    refine ⟨by rw [List.length_append, hbody]; omega, ?_, ?_⟩
    · have hkept : ∀ t ∈ stream.take (stream.length % 2 ^ 32), IsInt32 t :=
        fun t ht => hint t (List.mem_of_mem_take ht)
      have hread := readTokens_flatMap hkept later
      rw [hlength] at hread
      exact hread.symm
    · rw [List.drop_left' hbody]

/-- A frame whose length word is out of range ends the loading. -/
theorem readFrame_frame_reject {stream : List TokenId} (hload : ¬ Loadable stream) (later : Bytes) :
    readFrame (frame stream ++ later) = .reject () := by
  refine readFrame_reject_iff.mpr ⟨by rw [List.length_append, length_frame]; omega, ?_⟩
  rw [value_take_frame]
  rw [Loadable] at hload
  omega

theorem readStreams_frame_append {stream : List TokenId} (hload : Loadable stream)
    (hint : ∀ t ∈ stream, IsInt32 t) (later : Bytes) :
    readStreams (frame stream ++ later) =
      stream.take (stream.length % 2 ^ 32) :: readStreams later := by
  have hparse : frameParser.parse (frame stream ++ later) =
      .item (stream.take (stream.length % 2 ^ 32)) later := readFrame_frame hload hint later
  rw [readStreams, frameParser.drain_of_item hparse]
  rfl

theorem readStreams_frame_reject {stream : List TokenId} (hload : ¬ Loadable stream)
    (later : Bytes) : readStreams (frame stream ++ later) = [] := by
  have hparse : frameParser.parse (frame stream ++ later) = .reject () :=
    readFrame_frame_reject hload later
  rw [readStreams, frameParser.drain_of_reject hparse]

/-- A stream of ordinary length is written and read as it is. -/
theorem loadable_of_length {stream : List TokenId} (hne : stream ≠ [])
    (hshort : stream.length ≤ 2 ^ 26) :
    Loadable stream ∧ stream.take (stream.length % 2 ^ 32) = stream := by
  have hpos := List.length_pos_iff.mpr hne
  have hmod : stream.length % 2 ^ 32 = stream.length := Nat.mod_eq_of_lt (by omega)
  rw [Loadable, hmod]
  exact ⟨⟨hpos, hshort⟩, List.take_length⟩

/-- `load` reads back the frames that were written, and goes on after them. -/
theorem readStreams_frames {streams : List (List TokenId)} (hne : ∀ s ∈ streams, s ≠ [])
    (hint : ∀ s ∈ streams, ∀ t ∈ s, IsInt32 t) (hshort : ∀ s ∈ streams, s.length ≤ 2 ^ 26)
    (later : Bytes) :
    readStreams (frames streams ++ later) = streams ++ readStreams later := by
  induction streams with
  | nil => rfl
  | cons stream streams ih =>
      obtain ⟨hload, htake⟩ :=
        loadable_of_length (hne _ List.mem_cons_self) (hshort _ List.mem_cons_self)
      have hrest := ih (fun s hs => hne s (List.mem_cons_of_mem _ hs))
        (fun s hs => hint s (List.mem_cons_of_mem _ hs))
        (fun s hs => hshort s (List.mem_cons_of_mem _ hs))
      rw [frames_cons, List.append_assoc,
        readStreams_frame_append hload (hint _ List.mem_cons_self), htake, hrest,
        List.cons_append]

/-! ## Streams in a log -/

/-- Where streams end that are written one after the other from an offset on. -/
def endsFrom : ℕ → List (List TokenId) → List ℕ
  | _, [] => []
  | first, stream :: later => (first + stream.length) :: endsFrom (first + stream.length) later

/-- The n-grams of a stream that starts at an offset, each with the offset after it. -/
def sitesOf (n first : ℕ) (stream : List TokenId) : List (List TokenId × ℕ) :=
  (List.range (stream.length - n)).map fun i => ((stream.drop i).take n, first + i + n)

/-- The n-grams of streams written one after the other. -/
def sitesFrom (n : ℕ) : ℕ → List (List TokenId) → List (List TokenId × ℕ)
  | _, [] => []
  | first, stream :: later => sitesOf n first stream ++ sitesFrom n (first + stream.length) later

/-- The index entry of a site. -/
def entryOf (site : List TokenId × ℕ) : UInt64 × ℕ := (ngramKey site.1, site.2 % 2 ^ 32)

theorem length_endsFrom (first : ℕ) (streams : List (List TokenId)) :
    (endsFrom first streams).length = streams.length := by
  induction streams generalizing first with
  | nil => rfl
  | cons stream later ih => rw [endsFrom, List.length_cons, ih, List.length_cons]

theorem endsFrom_append (first : ℕ) (streams later : List (List TokenId)) :
    endsFrom first (streams ++ later) =
      endsFrom first streams ++ endsFrom (first + streams.flatten.length) later := by
  induction streams generalizing first with
  | nil => simp [endsFrom]
  | cons stream streams ih =>
      rw [List.cons_append, endsFrom, ih, endsFrom, List.flatten_cons, List.length_append,
        Nat.add_assoc, List.cons_append]

/-- A stream ends where the streams up to it end. -/
theorem getD_endsFrom {k : ℕ} {streams : List (List TokenId)} (hk : k < streams.length)
    (first : ℕ) :
    (endsFrom first streams).getD k 0 = first + (streams.take (k + 1)).flatten.length := by
  induction streams generalizing first k with
  | nil => simp at hk
  | cons stream streams ih =>
      cases k with
      | zero => simp [endsFrom]
      | succ k =>
          rw [endsFrom, List.getD_cons_succ, ih (Nat.lt_of_succ_lt_succ hk), List.take_succ_cons,
            List.flatten_cons, List.length_append, Nat.add_assoc]

theorem sitesFrom_append (n first : ℕ) (streams later : List (List TokenId)) :
    sitesFrom n first (streams ++ later) =
      sitesFrom n first streams ++ sitesFrom n (first + streams.flatten.length) later := by
  induction streams generalizing first with
  | nil => simp [sitesFrom]
  | cons stream streams ih =>
      rw [List.cons_append, sitesFrom, ih, sitesFrom, List.flatten_cons, List.length_append,
        Nat.add_assoc, List.append_assoc]

/-- Erasing a front of the log moves all ends. -/
theorem map_sub_endsFrom (dropped first : ℕ) (streams : List (List TokenId)) :
    (endsFrom (dropped + first) streams).map (· - dropped) = endsFrom first streams := by
  induction streams generalizing first with
  | nil => rfl
  | cons stream streams ih =>
      rw [endsFrom, List.map_cons, endsFrom, Nat.add_assoc, ih, Nat.add_sub_cancel_left]

theorem total_length (streams : List (List TokenId)) :
    total List.length streams = streams.flatten.length := by
  rw [List.length_flatten, total]

namespace CorpusIndex

variable {config : CorpusConfig} {corpus : CorpusIndex}

/-- Cut a log at stream ends. -/
def streamsFrom (log : List TokenId) : ℕ → List ℕ → List (List TokenId)
  | _, [] => []
  | first, streamEnd :: later =>
      (log.drop first).take (streamEnd - first) :: streamsFrom log streamEnd later

/-- The streams a corpus has. -/
def streams (corpus : CorpusIndex) : List (List TokenId) :=
  streamsFrom corpus.log 0 corpus.streamEnds

theorem streamsFrom_endsFrom (front : List TokenId) (streams : List (List TokenId)) :
    streamsFrom (front ++ streams.flatten) front.length (endsFrom front.length streams) =
      streams := by
  induction streams generalizing front with
  | nil => rfl
  | cons stream later ih =>
      have hrest := ih (front ++ stream)
      rw [List.length_append, List.append_assoc] at hrest
      rw [endsFrom, streamsFrom, List.flatten_cons, hrest, List.drop_left, Nat.add_sub_cancel_left,
        List.take_left]

theorem framesFrom_endsFrom (front : List TokenId) (streams : List (List TokenId)) :
    framesFrom (front ++ streams.flatten) front.length (endsFrom front.length streams) =
      frames streams := by
  induction streams generalizing front with
  | nil => rfl
  | cons stream later ih =>
      have hrest := ih (front ++ stream)
      rw [List.length_append, List.append_assoc] at hrest
      rw [endsFrom, framesFrom, List.flatten_cons, hrest, List.drop_left, Nat.add_sub_cancel_left,
        List.take_left, frames_cons]

/-- The log and the ends are those of the streams. -/
structure Lays (corpus : CorpusIndex) (streams : List (List TokenId)) : Prop where
  log_eq : corpus.log = streams.flatten
  ends_eq : corpus.streamEnds = endsFrom 0 streams

/-- Besides, the index has their most recent sites. -/
structure Holds (config : CorpusConfig) (corpus : CorpusIndex) (streams : List (List TokenId)) :
    Prop extends Lays corpus streams where
  index_eq : corpus.index =
    buckets config.maxSitesPerNgram ((sitesFrom config.ngram 0 streams).map entryOf)

/-- Besides, they are streams that can have been observed, within the budget, and the file
has the frames of the first ones. -/
structure Represents (config : CorpusConfig) (corpus : CorpusIndex)
    (streams : List (List TokenId)) : Prop extends Holds config corpus streams where
  ne_nil : ∀ s ∈ streams, s ≠ []
  int32 : ∀ s ∈ streams, ∀ t ∈ s, IsInt32 t
  fits : total List.length streams ≤ config.maxTokens
  flushed_le : corpus.flushedStreams ≤ streams.length
  file_eq : corpus.file = frames (streams.take corpus.flushedStreams)

theorem Lays.streams_eq {streams : List (List TokenId)} (hlays : Lays corpus streams) :
    corpus.streams = streams := by
  rw [CorpusIndex.streams, hlays.log_eq, hlays.ends_eq]
  exact streamsFrom_endsFrom [] streams

theorem Lays.log_length {streams : List (List TokenId)} (hlays : Lays corpus streams) :
    corpus.log.length = total List.length streams := by
  rw [hlays.log_eq, total_length]

/-! ## Indexing -/

/-- `index_stream` adds the sites of one stream. -/
theorem indexStream_index {front stream back : List TokenId} {entries : List (UInt64 × ℕ)}
    (hlog : corpus.log = front ++ stream ++ back)
    (hindex : corpus.index = buckets config.maxSitesPerNgram entries) :
    corpus.indexStream config front.length (front.length + stream.length) =
      { corpus with
        index := buckets config.maxSitesPerNgram
          (entries ++ (sitesOf config.ngram front.length stream).map entryOf) } := by
  rw [indexStream]
  by_cases hshort : front.length + stream.length - front.length < config.ngram + 1
  · have hnone : stream.length - config.ngram = 0 := by omega
    rw [if_pos hshort, sitesOf, hnone, List.range_zero, List.map_nil, List.map_nil, List.append_nil,
      ← hindex]
  · have hcount : front.length + stream.length - config.ngram - front.length =
        stream.length - config.ngram := by omega
    rw [if_neg hshort, hcount, hindex]
    congr 1
    have hsites : (sitesOf config.ngram front.length stream).map entryOf =
        (List.range' front.length (stream.length - config.ngram)).map fun i =>
          (ngramKey ((corpus.log.drop i).take config.ngram), (i + config.ngram) % 2 ^ 32) := by
      rw [sitesOf, List.map_map, List.range'_eq_map_range, List.map_map]
      refine List.map_congr_left fun i hi => ?_
      have hi := List.mem_range.mp hi
      -- The window lies inside the stream, so the log around it does not matter.
      have hwindow : (corpus.log.drop (front.length + i)).take config.ngram =
          (stream.drop i).take config.ngram := by
        rw [hlog, List.append_assoc, List.drop_length_add_append,
          List.drop_append_of_le_length (by omega),
          List.take_append_of_le_length (by rw [List.length_drop]; omega)]
      simp only [Function.comp_apply, entryOf, hwindow]
    rw [hsites, ← foldl_insertCapped, List.foldl_map]
    rfl

/-- Appending a stream. -/
theorem append_eq {streams : List (List TokenId)} (hholds : Holds config corpus streams)
    (stream : List TokenId) :
    corpus.append config stream =
      { corpus with
        log := (streams ++ [stream]).flatten
        streamEnds := endsFrom 0 (streams ++ [stream])
        index := buckets config.maxSitesPerNgram
          ((sitesFrom config.ngram 0 (streams ++ [stream])).map entryOf) } := by
  let longer : CorpusIndex :=
    { corpus with
      log := corpus.log ++ stream
      streamEnds := corpus.streamEnds ++ [(corpus.log ++ stream).length] }
  have hlog : longer.log = corpus.log ++ stream ++ [] := (List.append_nil _).symm
  have hindex : longer.index = _ := hholds.index_eq
  have happend : corpus.append config stream =
      longer.indexStream config corpus.log.length (corpus.log.length + stream.length) := by
    simp only [append, longer, List.length_append]
  rw [happend, indexStream_index hlog hindex, ← List.map_append]
  simp only [longer, hholds.log_eq, hholds.ends_eq, endsFrom_append, sitesFrom_append, endsFrom,
    sitesFrom, List.flatten_append, List.flatten_singleton, List.length_append, Nat.zero_add,
    List.append_nil]

theorem append_holds {streams : List (List TokenId)} (hholds : Holds config corpus streams)
    (stream : List TokenId) : Holds config (corpus.append config stream) (streams ++ [stream]) := by
  rw [append_eq hholds]
  exact ⟨⟨rfl, rfl⟩, rfl⟩

/-- The loop of `rebuild_index`, some streams in. -/
theorem foldl_indexStream {done : List (List TokenId)} (later : List (List TokenId))
    (hlog : corpus.log = (done ++ later).flatten)
    (hindex : corpus.index =
      buckets config.maxSitesPerNgram ((sitesFrom config.ngram 0 done).map entryOf)) :
    ((endsFrom done.flatten.length later).foldl (fun (state : CorpusIndex × ℕ) streamEnd =>
        (state.1.indexStream config state.2 streamEnd, streamEnd))
        (corpus, done.flatten.length)).1 =
      { corpus with
        index := buckets config.maxSitesPerNgram
          ((sitesFrom config.ngram 0 (done ++ later)).map entryOf) } := by
  induction later generalizing done corpus with
  | nil =>
      rw [List.append_nil, ← hindex]
      rfl
  | cons stream later ih =>
      have hsplit : corpus.log = done.flatten ++ stream ++ later.flatten := by
        rw [hlog, List.flatten_append, List.flatten_cons, List.append_assoc]
      have hnext : done.flatten.length + stream.length = (done ++ [stream]).flatten.length := by
        simp
      have hsites : sitesFrom config.ngram 0 done ++ sitesOf config.ngram done.flatten.length stream =
          sitesFrom config.ngram 0 (done ++ [stream]) := by
        rw [sitesFrom_append, sitesFrom, sitesFrom, List.append_nil, Nat.zero_add]
      rw [endsFrom, List.foldl_cons, indexStream_index hsplit hindex, ← List.map_append, hsites,
        hnext, ih _ rfl]
      · rw [List.append_assoc, List.singleton_append]
      · rw [hlog, List.append_assoc, List.singleton_append]

/-- `rebuild_index`. -/
theorem rebuildIndex_eq {streams : List (List TokenId)} (hlays : Lays corpus streams) :
    corpus.rebuildIndex config =
      { corpus with
        index := buckets config.maxSitesPerNgram
          ((sitesFrom config.ngram 0 streams).map entryOf) } := by
  let cleared : CorpusIndex := { corpus with index := fun _ => [] }
  have hlog : cleared.log = ([] ++ streams).flatten := hlays.log_eq
  have hindex : cleared.index =
      buckets config.maxSitesPerNgram ((sitesFrom config.ngram 0 []).map entryOf) := by
    funext key
    exact (buckets_nil _ key).symm
  have hends : endsFrom ([] : List (List TokenId)).flatten.length streams = corpus.streamEnds :=
    hlays.ends_eq.symm
  have hfold := foldl_indexStream streams hlog hindex
  rw [hends] at hfold
  exact hfold

/-! ## Eviction -/

/-- The loop of `evict_oldest` finds the longest suffix that fits. -/
theorem evictCount_spec {logSize first : ℕ} {streams : List (List TokenId)}
    (hsize : logSize = first + streams.flatten.length) (maxTokens : ℕ) :
    let dropped := evictCount logSize maxTokens (endsFrom first streams) first
    dropped.1 ≤ streams.length ∧ streams.drop dropped.1 = fit List.length maxTokens streams ∧
      dropped.2 = first + (streams.take dropped.1).flatten.length := by
  induction streams generalizing first with
  | nil => exact ⟨le_rfl, rfl, rfl⟩
  | cons stream later ih =>
      have hweight : logSize - first = total List.length (stream :: later) := by
        rw [total_length]
        omega
      have hlater : logSize = first + stream.length + later.flatten.length := by
        rw [hsize, List.flatten_cons, List.length_append]
        omega
      obtain ⟨hcount, hdrop, htokens⟩ := ih hlater
      by_cases hover : maxTokens < logSize - first
      · simp only [endsFrom, evictCount, if_pos hover, fit, if_pos (hweight ▸ hover)]
        refine ⟨Nat.succ_le_succ hcount, by rw [List.drop_succ_cons, hdrop], ?_⟩
        rw [htokens, List.take_succ_cons, List.flatten_cons, List.length_append]
        omega
      · simp only [endsFrom, evictCount, if_neg hover, fit, if_neg (hweight ▸ hover)]
        exact ⟨Nat.zero_le _, rfl, rfl⟩

/-- `evict_oldest`. -/
theorem evictOldest_eq {streams : List (List TokenId)} (hlays : Lays corpus streams) :
    corpus.evictOldest config =
      let kept := fit List.length config.maxTokens streams
      { log := kept.flatten
        streamEnds := endsFrom 0 kept
        flushedStreams := kept.length
        index := buckets config.maxSitesPerNgram ((sitesFrom config.ngram 0 kept).map entryOf)
        file := frames kept } := by
  have hsize : corpus.log.length = 0 + streams.flatten.length := by
    rw [hlays.log_eq, Nat.zero_add]
  obtain ⟨hcount, hdrop, htokens⟩ := evictCount_spec hsize config.maxTokens
  rw [← hlays.ends_eq] at hcount hdrop htokens
  generalize hdropped : evictCount corpus.log.length config.maxTokens corpus.streamEnds 0 = dropped
  rw [hdropped] at hcount hdrop htokens
  rw [Nat.zero_add] at htokens
  have hwhole := List.take_append_drop dropped.1 streams
  rw [hdrop] at hwhole
  set kept := fit List.length config.maxTokens streams
  let rest : CorpusIndex :=
    { corpus with
      log := corpus.log.drop dropped.2
      streamEnds := (corpus.streamEnds.drop dropped.1).map (· - dropped.2) }
  have hrest : Lays rest kept := by
    constructor
    · calc rest.log = streams.flatten.drop dropped.2 := by rw [← hlays.log_eq]
        _ = ((streams.take dropped.1).flatten ++ kept.flatten).drop dropped.2 := by
            rw [← List.flatten_append, hwhole]
        _ = kept.flatten := List.drop_left' htokens.symm
    · have hfront : (endsFrom 0 (streams.take dropped.1)).length = dropped.1 := by
        rw [length_endsFrom, List.length_take, Nat.min_eq_left hcount]
      have hsplit := endsFrom_append 0 (streams.take dropped.1) kept
      rw [hwhole, ← hlays.ends_eq, Nat.zero_add, ← htokens] at hsplit
      calc rest.streamEnds = (corpus.streamEnds.drop dropped.1).map (· - dropped.2) := rfl
        _ = (endsFrom dropped.2 kept).map (· - dropped.2) := by
            rw [hsplit, List.drop_left' hfront]
        _ = endsFrom 0 kept := map_sub_endsFrom dropped.2 0 kept
  have hevict : corpus.evictOldest config = (rest.rebuildIndex config).rewriteFile := by
    rw [evictOldest, hdropped]
  have hframes := framesFrom_endsFrom [] kept
  rw [hevict, rebuildIndex_eq hrest, rewriteFile]
  simp only [hrest.log_eq, hrest.ends_eq, length_endsFrom]
  simpa using hframes

/-! ## The operations -/

section Operations

variable {streams : List (List TokenId)}

theorem Holds.enforceBudget (hholds : Holds config corpus streams) :
    Holds config (corpus.enforceBudget config) (fit List.length config.maxTokens streams) := by
  rw [CorpusIndex.enforceBudget, hholds.log_length]
  by_cases hover : config.maxTokens < total List.length streams
  · rw [if_pos hover, evictOldest_eq hholds.toLays]
    exact ⟨⟨rfl, rfl⟩, rfl⟩
  · rw [if_neg hover, fit_of_le (by omega)]
    exact hholds

/-- Checking the budget when the file has the frames of a front of the streams. -/
theorem Holds.enforceBudget_represents (hholds : Holds config corpus streams)
    (hne : ∀ s ∈ streams, s ≠ []) (hint : ∀ s ∈ streams, ∀ t ∈ s, IsInt32 t)
    (hflushed : corpus.flushedStreams ≤ streams.length)
    (hfile : corpus.file = frames (streams.take corpus.flushedStreams)) :
    Represents config (corpus.enforceBudget config)
      (fit List.length config.maxTokens streams) := by
  have hsubset : fit List.length config.maxTokens streams ⊆ streams := (fit_suffix streams).subset
  refine ⟨hholds.enforceBudget, fun s hs => hne s (hsubset hs), fun s hs => hint s (hsubset hs),
    total_fit_le streams, ?_, ?_⟩
  all_goals
    rw [CorpusIndex.enforceBudget, hholds.log_length]
    by_cases hover : config.maxTokens < total List.length streams
  · rw [if_pos hover, evictOldest_eq hholds.toLays]
  · rw [if_neg hover, fit_of_le (by omega)]
    exact hflushed
  · rw [if_pos hover, evictOldest_eq hholds.toLays, List.take_length]
  · rw [if_neg hover, fit_of_le (by omega)]
    exact hfile

/-- `observe` appends the stream and enforces the budget. -/
theorem Represents.observe (hrep : Represents config corpus streams) {tokens : List TokenId}
    (hne : tokens ≠ []) (hint : ∀ t ∈ tokens, IsInt32 t) :
    Represents config (corpus.observe config tokens)
      (fit List.length config.maxTokens (streams ++ [tokens])) := by
  have happend := append_eq hrep.toHolds tokens
  have hflushed : (corpus.append config tokens).flushedStreams = corpus.flushedStreams := by
    rw [happend]
  have hfile : (corpus.append config tokens).file = corpus.file := by
    rw [happend]
  have hle := hrep.flushed_le
  rw [CorpusIndex.observe, if_neg hne]
  refine (append_holds hrep.toHolds tokens).enforceBudget_represents ?_ ?_ ?_ ?_
  · intro s hs
    rcases List.mem_append.mp hs with hs | hs
    · exact hrep.ne_nil s hs
    · rw [List.mem_singleton.mp hs]
      exact hne
  · intro s hs
    rcases List.mem_append.mp hs with hs | hs
    · exact hrep.int32 s hs
    · rw [List.mem_singleton.mp hs]
      exact hint
  · rw [hflushed, List.length_append]
    omega
  · rw [hfile, hflushed, List.take_append_of_le_length hle, hrep.file_eq]

/-- What `flush` writes are the frames of the streams that are not in the file yet. -/
theorem Lays.unflushed_eq (hlays : Lays corpus streams)
    (hle : corpus.flushedStreams ≤ streams.length) :
    corpus.unflushed = frames (streams.drop corpus.flushedStreams) := by
  set flushed := corpus.flushedStreams with hflushed
  have hfront : (endsFrom 0 (streams.take flushed)).length = flushed := by
    rw [length_endsFrom, List.length_take, Nat.min_eq_left hle]
  have hends := endsFrom_append 0 (streams.take flushed) (streams.drop flushed)
  rw [List.take_append_drop, Nat.zero_add] at hends
  have hfirst : (if flushed = 0 then 0 else corpus.streamEnds.getD (flushed - 1) 0) =
      (streams.take flushed).flatten.length := by
    by_cases hzero : flushed = 0
    · rw [if_pos hzero, hzero]
      rfl
    · rw [if_neg hzero, hlays.ends_eq, getD_endsFrom (by omega), Nat.zero_add,
        Nat.sub_add_cancel (by omega)]
  have hlog : corpus.log = (streams.take flushed).flatten ++ (streams.drop flushed).flatten := by
    rw [hlays.log_eq, ← List.flatten_append, List.take_append_drop]
  rw [unflushed, ← hflushed, hfirst, hlays.ends_eq, hends, List.drop_left' hfront, hlog]
  exact framesFrom_endsFrom _ _

/-- `flush` changes the file and the count of flushed streams. -/
theorem Lays.flush_eq (hlays : Lays corpus streams)
    (hle : corpus.flushedStreams ≤ streams.length) :
    corpus.flush =
      { corpus with
        file := corpus.file ++ frames (streams.drop corpus.flushedStreams)
        flushedStreams := streams.length } := by
  have hcount : corpus.streamEnds.length = streams.length := by
    rw [hlays.ends_eq, length_endsFrom]
  rw [CorpusIndex.flush, hcount, hlays.unflushed_eq hle]
  by_cases hall : streams.length ≤ corpus.flushedStreams
  · have heq : corpus.flushedStreams = streams.length := Nat.le_antisymm hle hall
    rw [if_pos hall, heq, List.drop_length, frames_nil, List.append_nil, ← heq]
  · rw [if_neg hall]

/-- After `flush` the file has all streams. -/
theorem Represents.flush (hrep : Represents config corpus streams) :
    Represents config corpus.flush streams ∧ corpus.flush.file = frames streams := by
  have hfile : corpus.file ++ frames (streams.drop corpus.flushedStreams) = frames streams := by
    rw [hrep.file_eq, ← frames_append, List.take_append_drop]
  rw [hrep.flush_eq hrep.flushed_le, hfile]
  refine ⟨⟨⟨⟨hrep.log_eq, hrep.ends_eq⟩, hrep.index_eq⟩, hrep.ne_nil, hrep.int32, hrep.fits,
    le_rfl, ?_⟩, rfl⟩
  rw [List.take_length]

/-- The loop of `load`. -/
theorem foldl_append_holds (hholds : Holds config corpus streams)
    (later : List (List TokenId)) :
    let loaded := later.foldl (fun corpus stream => append config corpus stream) corpus
    Holds config loaded (streams ++ later) ∧ loaded.file = corpus.file := by
  induction later generalizing corpus streams with
  | nil =>
      rw [List.append_nil]
      exact ⟨hholds, rfl⟩
  | cons stream later ih =>
      obtain ⟨hloaded, hfile⟩ := ih (append_holds hholds stream)
      rw [List.append_assoc, List.singleton_append] at hloaded
      refine ⟨hloaded, ?_⟩
      rw [List.foldl_cons, hfile, append_eq hholds]

/-- An empty corpus. -/
theorem holds_nil (file : Bytes) : Holds config { file := file } [] := by
  refine ⟨⟨rfl, rfl⟩, ?_⟩
  funext key
  exact (buckets_nil _ key).symm

/-- What `load` has before it checks the budget. -/
theorem load_eq (file : Bytes) :
    ∃ loaded, Holds config loaded (readStreams file) ∧ loaded.file = file ∧
      loaded.flushedStreams = (readStreams file).length ∧
      load config file = loaded.enforceBudget config := by
  have hempty : Holds config { file := file } [] := holds_nil file
  obtain ⟨hloaded, hfile⟩ := foldl_append_holds hempty (readStreams file)
  rw [List.nil_append] at hloaded
  set loaded := (readStreams file).foldl (fun corpus stream => append config corpus stream)
    { file := file }
  have hcount : loaded.streamEnds.length = (readStreams file).length := by
    rw [hloaded.ends_eq, length_endsFrom]
  exact ⟨{ loaded with flushedStreams := loaded.streamEnds.length },
    ⟨⟨hloaded.log_eq, hloaded.ends_eq⟩, hloaded.index_eq⟩, hfile, hcount, rfl⟩

/-- Whatever the file is, `load` holds the streams it reads, as far as they fit. -/
theorem load_holds (file : Bytes) :
    Holds config (load config file) (fit List.length config.maxTokens (readStreams file)) := by
  obtain ⟨loaded, hholds, -, -, heq⟩ := @load_eq config file
  rw [heq]
  exact hholds.enforceBudget

/-- Loading a file that has the frames of some streams. -/
theorem load_frames (hne : ∀ s ∈ streams, s ≠ []) (hint : ∀ s ∈ streams, ∀ t ∈ s, IsInt32 t)
    (hshort : ∀ s ∈ streams, s.length ≤ 2 ^ 26) :
    Represents config (load config (frames streams))
      (fit List.length config.maxTokens streams) := by
  have hread : readStreams (frames streams) = streams := by
    have happend := readStreams_frames hne hint hshort []
    have hnil : readStreams [] = [] := rfl
    rwa [List.append_nil, hnil, List.append_nil] at happend
  obtain ⟨loaded, hholds, hfile, hflushed, heq⟩ := @load_eq config (frames streams)
  rw [hread] at hholds hflushed
  rw [heq]
  refine hholds.enforceBudget_represents hne hint hflushed.le ?_
  rw [hfile, hflushed, List.take_length]

/-- A corpus in a fresh directory. -/
theorem load_nil (config : CorpusConfig) : Represents config (load config []) [] := by
  have hload : Represents config (load config (frames [])) (fit List.length config.maxTokens []) :=
    load_frames (by simp) (by simp) (by simp)
  exact hload

/-- No retained stream is longer than the budget. -/
theorem Represents.length_le (hrep : Represents config corpus streams) {s : List TokenId}
    (hs : s ∈ streams) : s.length ≤ config.maxTokens := by
  have hone : s.length ≤ total List.length streams :=
    List.single_le_sum (by simp) _ (List.mem_map_of_mem hs)
  exact hone.trans hrep.fits

/-- A clean close and the next open. -/
theorem Represents.reopen (hrep : Represents config corpus streams)
    (hshort : ∀ s ∈ streams, s.length ≤ 2 ^ 26) :
    Represents config (corpus.reopen config) streams := by
  have hload : Represents config (load config (frames streams)) _ :=
    load_frames hrep.ne_nil hrep.int32 hshort
  rw [CorpusIndex.reopen, hrep.flush.2]
  rwa [fit_of_le hrep.fits] at hload

end Operations

/-! ## Runs -/

/-- The stream an operation shows to the corpus; an empty one is not recorded. -/
def Op.observed : Op → List (List TokenId)
  | .observe tokens => if tokens = [] then [] else [tokens]
  | .flush => []
  | .reopen => []

/-- All streams observed in a run. -/
def observed (ops : List Op) : List (List TokenId) := ops.flatMap Op.observed

theorem Op.observed_ne_nil {op : Op} : ∀ s ∈ op.observed, s ≠ [] := by
  intro s hs
  cases op with
  | flush => cases hs
  | reopen => cases hs
  | observe tokens =>
      by_cases hempty : tokens = []
      · rw [Op.observed, if_pos hempty] at hs
        cases hs
      · rw [Op.observed, if_neg hempty] at hs
        rw [List.mem_singleton.mp hs]
        exact hempty

section Runs

variable {streams : List (List TokenId)}

/-- One operation adds what it observes and keeps the budget. -/
theorem Represents.apply (hrep : Represents config corpus streams) {op : Op}
    (hint : ∀ s ∈ op.observed, ∀ t ∈ s, IsInt32 t) (hshort : ∀ s ∈ streams, s.length ≤ 2 ^ 26) :
    Represents config (corpus.apply config op)
      (fit List.length config.maxTokens (streams ++ op.observed)) := by
  have hsame := fit_of_le hrep.fits
  cases op with
  | flush =>
      rw [Op.observed, List.append_nil, hsame]
      exact hrep.flush.1
  | reopen =>
      rw [Op.observed, List.append_nil, hsame]
      exact hrep.reopen hshort
  | observe tokens =>
      rw [CorpusIndex.apply]
      by_cases hempty : tokens = []
      · rw [Op.observed, if_pos hempty, List.append_nil, hsame, CorpusIndex.observe, if_pos hempty]
        exact hrep
      · rw [Op.observed, if_neg hempty] at hint ⊢
        exact hrep.observe hempty (hint tokens (List.mem_singleton.mpr rfl))

/-- A run adds what it observes and keeps the budget, as long as no retained stream is too
long for `load`. -/
theorem Represents.run (hrep : Represents config corpus streams) {ops : List Op}
    (hint : ∀ s ∈ observed ops, ∀ t ∈ s, IsInt32 t)
    (hshort : config.maxTokens ≤ 2 ^ 26 ∨ ∀ s ∈ streams ++ observed ops, s.length ≤ 2 ^ 26) :
    Represents config (corpus.run config ops)
      (fit List.length config.maxTokens (streams ++ observed ops)) := by
  induction ops generalizing corpus streams with
  | nil =>
      rw [observed, List.flatMap_nil, List.append_nil, fit_of_le hrep.fits]
      exact hrep
  | cons op ops ih =>
      have hobserved : observed (op :: ops) = op.observed ++ observed ops := List.flatMap_cons
      rw [hobserved] at hint hshort ⊢
      have hnow : ∀ s ∈ streams, s.length ≤ 2 ^ 26 := by
        intro s hs
        rcases hshort with hbudget | hshort
        · exact (hrep.length_le hs).trans hbudget
        · exact hshort s (List.mem_append_left _ hs)
      have hstep := hrep.apply (fun s hs => hint s (List.mem_append_left _ hs)) hnow
      have hlater := ih hstep (fun s hs => hint s (List.mem_append_right _ hs)) ?_
      · rw [fit_fit_append, List.append_assoc] at hlater
        exact hlater
      · refine hshort.imp_right fun hshort s hs => ?_
        rcases List.mem_append.mp hs with hs | hs
        · rcases List.mem_append.mp ((fit_suffix _).subset hs) with hs | hs
          · exact hshort s (List.mem_append_left _ hs)
          · exact hshort s (List.mem_append_right _ (List.mem_append_left _ hs))
        · exact hshort s (List.mem_append_right _ (List.mem_append_right _ hs))

end Runs

end CorpusIndex

end Reame.Palimpsest
