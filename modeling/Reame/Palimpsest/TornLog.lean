import Reame.Palimpsest.CorpusLog

/-!
# A torn corpus log

A crash during a write leaves a front of the file: the frames of some streams and, unless the
cut falls between two frames, a part of the next one.  `load` drops that part, but it stays in
the file, and `flush` appends behind it.  The next `load` reads the torn frame to its end,
through the bytes of the streams that were flushed after the crash.

`survivesCut_iff` says exactly when nothing of the kind happens.
-/

namespace Reame.Palimpsest

open Retention

/-! ## Cutting a file -/

/-- The streams whose frames lie before the cut. -/
def completeStreams : List (List TokenId) → ℕ → List (List TokenId)
  | [], _ => []
  | stream :: later, cut =>
      if (frame stream).length ≤ cut then
        stream :: completeStreams later (cut - (frame stream).length)
      else []

/-- The part of the next frame that lies before the cut. -/
def tornFrame : List (List TokenId) → ℕ → Bytes
  | [], _ => []
  | stream :: later, cut =>
      if (frame stream).length ≤ cut then tornFrame later (cut - (frame stream).length)
      else (frame stream).take cut

theorem take_frames (written : List (List TokenId)) (cut : ℕ) :
    (frames written).take cut = frames (completeStreams written cut) ++ tornFrame written cut := by
  induction written generalizing cut with
  | nil => simp [frames, completeStreams, tornFrame]
  | cons stream later ih =>
      rw [frames_cons, List.take_append, ih, completeStreams, tornFrame]
      by_cases hwhole : (frame stream).length ≤ cut
      · rw [if_pos hwhole, if_pos hwhole, List.take_of_length_le hwhole, frames_cons,
          List.append_assoc]
      · have hnone : cut - (frame stream).length = 0 := by omega
        rw [if_neg hwhole, if_neg hwhole, hnone]
        cases later <;> simp [completeStreams, tornFrame, frames, length_frame]

theorem completeStreams_subset (written : List (List TokenId)) (cut : ℕ) :
    completeStreams written cut ⊆ written := by
  induction written generalizing cut with
  | nil => exact List.Subset.refl _
  | cons stream later ih =>
      rw [completeStreams]
      by_cases hwhole : (frame stream).length ≤ cut
      · rw [if_pos hwhole]
        exact List.cons_subset_cons stream (ih _)
      · rw [if_neg hwhole]
        exact List.nil_subset _

/-- A torn frame is a proper part of a frame. -/
theorem tornFrame_eq (written : List (List TokenId)) (cut : ℕ) :
    tornFrame written cut = [] ∨
      ∃ stream part, tornFrame written cut = (frame stream).take part ∧
        part < (frame stream).length := by
  induction written generalizing cut with
  | nil => exact Or.inl rfl
  | cons stream later ih =>
      rw [tornFrame]
      by_cases hwhole : (frame stream).length ≤ cut
      · rw [if_pos hwhole]
        exact ih _
      · rw [if_neg hwhole]
        exact Or.inr ⟨stream, cut, rfl, by omega⟩

/-! ## Reading behind a torn frame -/

theorem length_readTokens (len : ℕ) (data : Bytes) : (readTokens len data).length = len := by
  induction len generalizing data with
  | zero => rfl
  | succ len ih => rw [readTokens, List.length_cons, ih]

/-- A frame that is read takes as many bytes as its length word says. -/
theorem length_of_readFrame {data rest : Bytes} {stream : List TokenId}
    (hitem : readFrame data = .item stream rest) :
    data.length = 4 + LittleEndian.value (data.take 4) * 4 + rest.length ∧
      0 < LittleEndian.value (data.take 4) := by
  obtain ⟨hword, len, rfl, hpos, -, hbody, -, rfl⟩ := readFrame_item_iff.mp hitem
  rw [List.length_drop] at hbody
  simp only [List.length_drop]
  omega

/-- If the first round does not yield a stream, nothing is read. -/
theorem readStreams_of_not_item {data : Bytes}
    (hnone : ∀ stream rest, readFrame data ≠ .item stream rest) : readStreams data = [] := by
  cases hparse : frameParser.parse data with
  | more => rw [readStreams, frameParser.drain_of_more hparse]
  | reject error => rw [readStreams, frameParser.drain_of_reject hparse]
  | item stream rest => exact absurd hparse (hnone stream rest)

/-- No stream is read from fewer than eight bytes. -/
theorem readStreams_of_length_lt {data : Bytes} (hshort : data.length < 8) :
    readStreams data = [] := by
  refine readStreams_of_not_item fun stream rest hitem => ?_
  have hlength := length_of_readFrame hitem
  omega

/-- A torn frame alone is dropped. -/
theorem readStreams_take_frame {stream : List TokenId} {part : ℕ}
    (hpart : part < (frame stream).length) : readStreams ((frame stream).take part) = [] := by
  refine readStreams_of_not_item fun other rest hitem => ?_
  obtain ⟨hlength, hpos⟩ := length_of_readFrame hitem
  have hword : ((frame stream).take part).take 4 = (frame stream).take 4 := by
    rw [List.length_take] at hlength
    rw [List.take_take, Nat.min_eq_left (by omega)]
  have hvalue := value_take_frame stream []
  rw [List.append_nil] at hvalue
  rw [hword, hvalue, List.length_take, length_frame] at hlength
  rw [length_frame] at hpart
  omega

/-- The word that is read where a frame of one token starts in its midst. -/
theorem value_torn {part : Bytes} (hshort : part.length < 4) :
    LittleEndian.value ((part ++ frame [-1]).take 4) =
      LittleEndian.value part + 256 ^ part.length := by
  have hone : ∀ j, 0 < j → j ≤ 4 → LittleEndian.value ((frame [-1]).take j) = 1 := by
    intro j hpos hle
    interval_cases j <;> decide +kernel
  rw [List.take_append, List.take_of_length_le hshort.le, LittleEndian.value_append,
    hone _ (by omega) (by omega), Nat.mul_one]

/-- Behind a torn length word a frame is never reached: the word that is read is at least 256,
and there are not that many bytes. -/
theorem readStreams_torn_word {word : Bytes} (hne : word ≠ []) (hshort : word.length < 4) :
    readStreams (word ++ frame [-1]) = [] := by
  refine readStreams_of_not_item fun stream rest hitem => ?_
  have hlength := (length_of_readFrame hitem).1
  have hpow : 256 ^ 1 ≤ 256 ^ word.length :=
    Nat.pow_le_pow_right (by norm_num) (List.length_pos_iff.mpr hne)
  rw [value_torn hshort, List.length_append, length_frame] at hlength
  simp only [List.length_singleton] at hlength
  omega

/-- A token that is read across the border of a torn frame and the next length word. -/
theorem tokenOf_torn {part : Bytes} (hshort : part.length < 4) :
    tokenOf ((part ++ frame [-1]).take 4) ≠ -1 := by
  have hlow := LittleEndian.value_lt part
  have hpow : 256 ^ part.length ≤ 256 ^ 3 := Nat.pow_le_pow_right (by norm_num) (by omega)
  have hword : LittleEndian.value ((part ++ frame [-1]).take 4) < 2 ^ 31 := by
    rw [value_torn hshort]
    omega
  rw [tokenOf]
  generalize LittleEndian.value ((part ++ frame [-1]).take 4) = word at hword
  have htoken : toInt32 word = (word : ℤ) := toInt32_of_mem (by omega) (by omega)
  intro hneg
  have hnegative : (word : ℤ) = -1 := htoken.symm.trans hneg
  omega

/-- Behind a torn frame the stream `[-1]` is not read back. -/
theorem readStreams_torn {stream : List TokenId} {part : ℕ} (hpos : 0 < part)
    (hpart : part < (frame stream).length) :
    let read := readStreams ((frame stream).take part ++ frame [-1])
    read.length ≤ 1 ∧ read ≠ [[-1]] := by
  have htorn : ((frame stream).take part).length = part := by
    rw [List.length_take, Nat.min_eq_left hpart.le]
  by_cases hword : part < 4
  · have hne : (frame stream).take part ≠ [] := by
      rw [← List.length_pos_iff, htorn]
      exact hpos
    rw [readStreams_torn_word hne (by omega)]
    simp
  · -- The length word is whole, so the torn frame is read to its end, which lies behind the cut.
    have hvalue : LittleEndian.value (((frame stream).take part ++ frame [-1]).take 4) =
        stream.length % 2 ^ 32 := by
      have hwhole := value_take_frame stream []
      rw [List.append_nil] at hwhole
      rw [List.take_append_of_le_length (by omega), List.take_take, Nat.min_eq_left (by omega),
        hwhole]
    cases hparse : frameParser.parse ((frame stream).take part ++ frame [-1]) with
    | more =>
        rw [readStreams, frameParser.drain_of_more hparse]
        simp
    | reject error =>
        rw [readStreams, frameParser.drain_of_reject hparse]
        simp
    | item other rest =>
        obtain ⟨-, len, hlen, -, -, -, rfl, -⟩ := readFrame_item_iff.mp hparse
        obtain ⟨hlength, -⟩ := length_of_readFrame hparse
        rw [hlen] at hvalue hlength
        rw [List.length_append, htorn, length_frame [-1], List.length_singleton] at hlength
        rw [length_frame, ← hvalue] at hpart
        have hrest : readStreams rest = [] := readStreams_of_length_lt (by omega)
        rw [readStreams] at hrest
        rw [readStreams, frameParser.drain_of_item hparse, Incremental.Drained.behind]
        simp only [hrest, List.append_nil]
        refine ⟨le_rfl, fun heq => ?_⟩
        have hother := (List.cons.inj heq).1
        have hone : len = 1 := by
          rw [← length_readTokens len, hother, List.length_singleton]
        rw [hone, List.drop_append_of_le_length (by omega), readTokens, readTokens] at hother
        refine tokenOf_torn ?_ (List.cons.inj hother).1
        rw [List.length_drop, htorn]
        omega

/-- What is read of the frames of some streams, when they are followed by something `load`
drops: not more than there are, and all of them only if none is too long. -/
theorem readStreams_frames_le {streams : List (List TokenId)}
    (hint : ∀ s ∈ streams, ∀ t ∈ s, IsInt32 t) {torn : Bytes} (htorn : readStreams torn = []) :
    (readStreams (frames streams ++ torn)).length ≤ streams.length ∧
      (readStreams (frames streams ++ torn) = streams → ∀ s ∈ streams, s.length ≤ 2 ^ 26) := by
  induction streams with
  | nil => exact ⟨by rw [frames_nil, List.nil_append, htorn], by simp⟩
  | cons stream later ih =>
      have hframes : frames (stream :: later) ++ torn = frame stream ++ (frames later ++ torn) := by
        rw [frames_cons, List.append_assoc]
      obtain ⟨hlength, hshort⟩ := ih fun s hs => hint s (List.mem_cons_of_mem stream hs)
      rw [hframes]
      by_cases hload : Loadable stream
      · rw [readStreams_frame_append hload (hint stream List.mem_cons_self)]
        refine ⟨Nat.succ_le_succ hlength, fun heq s hs => ?_⟩
        obtain ⟨hstream, hlater⟩ := List.cons.inj heq
        rcases List.mem_cons.mp hs with rfl | hs
        · have hmod := congrArg List.length hstream
          rw [List.length_take, Nat.min_eq_left (Nat.mod_le _ _)] at hmod
          rw [← hmod]
          exact hload.2
        · exact hshort hlater s hs
      · rw [readStreams_frame_reject hload]
        exact ⟨Nat.zero_le _, fun heq => by cases heq⟩

namespace CorpusIndex

variable {config : CorpusConfig}

/-! ## The files a corpus writes -/

/-- Streams that can have been observed. -/
def Observable (streams : List (List TokenId)) : Prop :=
  ∀ s ∈ streams, s ≠ [] ∧ ∀ t ∈ s, IsInt32 t

/-- The file has the frames of some streams, whatever became of them in memory. -/
def WritesFrames (config : CorpusConfig) (corpus : CorpusIndex) : Prop :=
  ∃ streams written, Holds config corpus streams ∧ corpus.flushedStreams ≤ streams.length ∧
    Observable streams ∧ corpus.file = frames written ∧ Observable written

theorem Observable.append {streams later : List (List TokenId)} (hstreams : Observable streams)
    (hlater : Observable later) : Observable (streams ++ later) := by
  intro s hs
  rcases List.mem_append.mp hs with hs | hs
  · exact hstreams s hs
  · exact hlater s hs

/-- What is read of observable streams is observable. -/
theorem Observable.readStreams {written : List (List TokenId)} (hwritten : Observable written) :
    Observable (readStreams (frames written)) := by
  induction written with
  | nil => exact hwritten
  | cons stream later ih =>
      have hlater := ih fun s hs => hwritten s (List.mem_cons_of_mem stream hs)
      obtain ⟨-, hint⟩ := hwritten stream List.mem_cons_self
      rw [frames_cons]
      by_cases hload : Loadable stream
      · rw [readStreams_frame_append hload hint]
        intro s hs
        rcases List.mem_cons.mp hs with rfl | hs
        · refine ⟨?_, fun t ht => hint t (List.mem_of_mem_take ht)⟩
          rw [← List.length_pos_iff, List.length_take, Nat.min_eq_left (Nat.mod_le _ _)]
          exact hload.1
        · exact hlater s hs
      · rw [readStreams_frame_reject hload]
        exact fun s hs => by cases hs

theorem WritesFrames.enforceBudget {corpus : CorpusIndex} {streams written : List (List TokenId)}
    (hholds : Holds config corpus streams) (hflushed : corpus.flushedStreams ≤ streams.length)
    (hstreams : Observable streams) (hfile : corpus.file = frames written)
    (hwritten : Observable written) : WritesFrames config (corpus.enforceBudget config) := by
  by_cases hover : config.maxTokens < corpus.log.length
  · have hkept : Observable (fit List.length config.maxTokens streams) :=
      fun s hs => hstreams s ((fit_suffix streams).subset hs)
    rw [CorpusIndex.enforceBudget, if_pos hover, evictOldest_eq hholds.toLays]
    exact ⟨_, _, ⟨⟨rfl, rfl⟩, rfl⟩, le_rfl, hkept, rfl, hkept⟩
  · rw [CorpusIndex.enforceBudget, if_neg hover]
    exact ⟨streams, written, hholds, hflushed, hstreams, hfile, hwritten⟩

theorem writesFrames_load {written : List (List TokenId)} (hwritten : Observable written) :
    WritesFrames config (load config (frames written)) := by
  obtain ⟨loaded, hholds, hfile, hflushed, heq⟩ := @load_eq config (frames written)
  rw [heq]
  exact .enforceBudget hholds hflushed.le hwritten.readStreams hfile hwritten

theorem WritesFrames.apply {corpus : CorpusIndex} (hframes : WritesFrames config corpus) {op : Op}
    (hint : ∀ s ∈ op.observed, ∀ t ∈ s, IsInt32 t) :
    WritesFrames config (corpus.apply config op) := by
  obtain ⟨streams, written, hholds, hflushed, hstreams, hfile, hwritten⟩ := hframes
  have hnew : Observable (streams.drop corpus.flushedStreams) :=
    fun s hs => hstreams s (List.mem_of_mem_drop hs)
  have hflush : corpus.flush.file = frames (written ++ streams.drop corpus.flushedStreams) := by
    rw [hholds.flush_eq hflushed, hfile, frames_append]
  cases op with
  | flush =>
      refine ⟨streams, _, ?_, ?_, hstreams, hflush, hwritten.append hnew⟩
      · rw [CorpusIndex.apply, hholds.flush_eq hflushed]
        exact ⟨⟨hholds.log_eq, hholds.ends_eq⟩, hholds.index_eq⟩
      · rw [CorpusIndex.apply, hholds.flush_eq hflushed]
  | reopen =>
      rw [CorpusIndex.apply, CorpusIndex.reopen, hflush]
      exact writesFrames_load (hwritten.append hnew)
  | observe tokens =>
      rw [CorpusIndex.apply, CorpusIndex.observe]
      by_cases hempty : tokens = []
      · rw [if_pos hempty]
        exact ⟨streams, written, hholds, hflushed, hstreams, hfile, hwritten⟩
      · have happend := append_eq hholds tokens
        have htokens : Observable [tokens] := by
          rw [Op.observed, if_neg hempty] at hint
          intro s hs
          rw [List.mem_singleton.mp hs]
          exact ⟨hempty, hint tokens (List.mem_singleton.mpr rfl)⟩
        rw [if_neg hempty]
        refine .enforceBudget (append_holds hholds tokens) ?_ (hstreams.append htokens) ?_ hwritten
        · rw [happend, List.length_append]
          exact hflushed.trans (Nat.le_add_right _ _)
        · rw [happend]
          exact hfile

/-- Every file that a corpus writes has the frames of streams that were observed once. -/
theorem run_writesFrames {ops : List Op} (hint : ∀ s ∈ observed ops, ∀ t ∈ s, IsInt32 t) :
    WritesFrames config ((load config []).run config ops) := by
  have hrun : ∀ {corpus : CorpusIndex}, WritesFrames config corpus →
      WritesFrames config (corpus.run config ops) := by
    induction ops with
    | nil => exact fun hframes => hframes
    | cons op ops ih =>
        have hobserved : observed (op :: ops) = op.observed ++ observed ops := List.flatMap_cons
        rw [hobserved] at hint
        intro corpus hframes
        exact ih (fun s hs => hint s (List.mem_append_right _ hs))
          (hframes.apply fun s hs => hint s (List.mem_append_left _ hs))
  have hempty : Observable [] := fun s hs => by cases hs
  exact hrun (writesFrames_load hempty)

/-! ## Crashes -/

/-- What a crash leaves: `load` opens the file with the complete streams. -/
theorem load_torn {streams : List (List TokenId)} {torn : Bytes}
    (hread : readStreams (frames streams ++ torn) = streams)
    (hroom : total List.length streams ≤ config.maxTokens) :
    Holds config (load config (frames streams ++ torn)) streams ∧
      (load config (frames streams ++ torn)).file = frames streams ++ torn ∧
      (load config (frames streams ++ torn)).flushedStreams = streams.length := by
  obtain ⟨loaded, hholds, hfile, hflushed, heq⟩ := @load_eq config (frames streams ++ torn)
  rw [hread] at hholds hflushed
  have hkept : loaded.enforceBudget config = loaded := by
    rw [CorpusIndex.enforceBudget, hholds.log_length, if_neg (by omega)]
  rw [heq, hkept]
  exact ⟨hholds, hfile, hflushed⟩

/-- Nothing is written as long as nothing is observed. -/
theorem run_of_observed_nil {streams : List (List TokenId)} {torn : Bytes}
    (hread : readStreams (frames streams ++ torn) = streams)
    (hroom : total List.length streams ≤ config.maxTokens) {ops : List Op}
    (hnone : observed ops = []) :
    (load config (frames streams ++ torn)).run config ops =
      load config (frames streams ++ torn) := by
  obtain ⟨hholds, hfile, hflushed⟩ := load_torn hread hroom
  have hflush : (load config (frames streams ++ torn)).flush =
      load config (frames streams ++ torn) := by
    rw [hholds.flush_eq hflushed.le, hflushed, List.drop_length, frames_nil, List.append_nil,
      ← hflushed]
  induction ops with
  | nil => rfl
  | cons op ops ih =>
      obtain ⟨hop, hops⟩ := List.append_eq_nil_iff.mp hnone
      have hsame : (load config (frames streams ++ torn)).apply config op =
          load config (frames streams ++ torn) := by
        cases op with
        | flush => exact hflush
        | reopen => rw [CorpusIndex.apply, CorpusIndex.reopen, hflush, hfile]
        | observe tokens =>
            rw [CorpusIndex.apply, CorpusIndex.observe]
            by_cases hempty : tokens = []
            · rw [if_pos hempty]
            · rw [Op.observed, if_neg hempty] at hop
              cases hop
      rw [CorpusIndex.run, List.foldl_cons, hsame]
      exact ih hops

/-- One stream observed after the crash, and a restart: its frame stands behind the torn
one. -/
theorem streams_observe_reopen {streams : List (List TokenId)} {torn : Bytes}
    (hread : readStreams (frames streams ++ torn) = streams) {tokens : List TokenId}
    (hne : tokens ≠ []) (hroom : total List.length (streams ++ [tokens]) ≤ config.maxTokens) :
    ((load config (frames streams ++ torn)).run config [.observe tokens, .reopen]).streams =
      fit List.length config.maxTokens (readStreams (frames streams ++ torn ++ frame tokens)) := by
  have hbefore : total List.length streams ≤ config.maxTokens := by
    rw [total_append] at hroom
    omega
  obtain ⟨hholds, hfile, hflushed⟩ := load_torn hread hbefore
  set opened := load config (frames streams ++ torn)
  have hlonger := append_holds hholds tokens
  have happend := append_eq hholds tokens
  have hflushed' : (opened.append config tokens).flushedStreams = streams.length := by
    rw [happend, ← hflushed]
  have hfile' : (opened.append config tokens).file = frames streams ++ torn := by
    rw [happend, ← hfile]
  have hobserve : opened.observe config tokens = opened.append config tokens := by
    rw [CorpusIndex.observe, if_neg hne, CorpusIndex.enforceBudget, hlonger.log_length,
      if_neg (by omega)]
  have hclosed : (opened.append config tokens).flush.file =
      frames streams ++ torn ++ frame tokens := by
    rw [hlonger.flush_eq (by rw [hflushed', List.length_append]; omega), hflushed', hfile',
      List.drop_left, frames_cons, frames_nil, List.append_nil]
  calc (opened.run config [.observe tokens, .reopen]).streams
      = ((opened.observe config tokens).reopen config).streams := rfl
    _ = (load config (frames streams ++ torn ++ frame tokens)).streams := by
        rw [hobserve, CorpusIndex.reopen, hclosed]
    _ = _ := (load_holds _).streams_eq

section Survival

variable (config : CorpusConfig) (written : List (List TokenId)) (cut : ℕ)

/-- Whatever is done later within the budget, a corpus that opens the cut file has the streams
that were complete and the ones observed since. -/
def SurvivesCut : Prop :=
  ∀ later : List Op, (∀ s ∈ observed later, ∀ t ∈ s, IsInt32 t) →
    total List.length (completeStreams written cut ++ observed later) ≤ config.maxTokens →
    ((load config ((frames written).take cut)).run config later).streams =
      completeStreams written cut ++ observed later

variable {config written cut}

theorem readStreams_tornFrame : readStreams (tornFrame written cut) = [] := by
  rcases tornFrame_eq written cut with hnil | ⟨stream, part, htorn, hpart⟩
  · rw [hnil]
    rfl
  · rw [htorn]
    exact readStreams_take_frame hpart

/-- Without anything done later, the complete streams must have been read. -/
theorem SurvivesCut.readStreams_eq (hsurvives : SurvivesCut config written cut)
    (hint : ∀ s ∈ written, ∀ t ∈ s, IsInt32 t)
    (hroom : total List.length (completeStreams written cut) ≤ config.maxTokens) :
    readStreams (frames (completeStreams written cut) ++ tornFrame written cut) =
      completeStreams written cut := by
  have hopened := hsurvives [] (by simp [observed]) (by simpa [observed] using hroom)
  have hnothing : observed [] = [] := rfl
  rw [hnothing, List.append_nil, take_frames, run, List.foldl_nil, (load_holds _).streams_eq]
    at hopened
  obtain ⟨hlength, -⟩ := readStreams_frames_le
    (fun s hs => hint s (completeStreams_subset written cut hs))
    (@readStreams_tornFrame written cut)
  have hsuffix : fit List.length config.maxTokens
      (readStreams (frames (completeStreams written cut) ++ tornFrame written cut)) <:+ _ :=
    fit_suffix _
  rw [hopened] at hsuffix
  exact (hsuffix.eq_of_length (Nat.le_antisymm hsuffix.length_le hlength)).symm

/-- With room for one more token, the cut must not tear a frame. -/
theorem SurvivesCut.tornFrame_eq_nil (hsurvives : SurvivesCut config written cut)
    (hint : ∀ s ∈ written, ∀ t ∈ s, IsInt32 t) (hne : ∀ s ∈ written, s ≠ [])
    (hroom : total List.length (completeStreams written cut) < config.maxTokens) :
    tornFrame written cut = [] := by
  have hread := hsurvives.readStreams_eq hint hroom.le
  have hsubset := completeStreams_subset written cut
  set complete := completeStreams written cut
  have hshort := (readStreams_frames_le (fun s hs => hint s (hsubset hs))
    readStreams_tornFrame).2 hread
  rcases tornFrame_eq written cut with hnil | ⟨stream, part, htorn, hpart⟩
  · exact hnil
  by_contra htorn_ne
  have hpos : 0 < part := by
    by_contra hzero
    rw [htorn, Nat.eq_zero_of_not_pos hzero] at htorn_ne
    exact htorn_ne rfl
  have hafter : total List.length (complete ++ [[-1]]) ≤ config.maxTokens := by
    rw [total_append]
    simpa using hroom
  -- The token `-1` is observed after the crash, and the corpus is opened again.
  have hstreams := hsurvives [.observe [-1], .reopen] (by decide) hafter
  have hbehind := readStreams_frames (fun s hs => hne s (hsubset hs))
    (fun s hs => hint s (hsubset hs)) hshort (tornFrame written cut ++ frame [-1])
  rw [take_frames, streams_observe_reopen hread (by decide) hafter, List.append_assoc, hbehind,
    htorn] at hstreams
  obtain ⟨hone, hother⟩ := readStreams_torn hpos hpart
  set read := readStreams ((frame stream).take part ++ frame [-1])
  have hsuffix : complete ++ observed [.observe [-1], .reopen] <:+ complete ++ read := by
    rw [← hstreams]
    exact fit_suffix _
  have hlength : (complete ++ observed [.observe [-1], .reopen]).length =
      (complete ++ read).length := by
    refine Nat.le_antisymm hsuffix.length_le ?_
    rw [List.length_append, List.length_append]
    exact Nat.add_le_add_left hone _
  exact hother (List.append_cancel_left (hsuffix.eq_of_length hlength)).symm

/-- There must be no room for a stream that `load` takes for a corrupt one. -/
theorem SurvivesCut.room_le (hsurvives : SurvivesCut config written cut)
    (hint : ∀ s ∈ written, ∀ t ∈ s, IsInt32 t) (hne : ∀ s ∈ written, s ≠ [])
    (hroom : total List.length (completeStreams written cut) ≤ config.maxTokens) :
    config.maxTokens - total List.length (completeStreams written cut) ≤ 2 ^ 26 := by
  by_contra hmore
  have hread := hsurvives.readStreams_eq hint hroom
  have htorn := hsurvives.tornFrame_eq_nil hint hne (by omega)
  have hsubset := completeStreams_subset written cut
  have hshort := (readStreams_frames_le (fun s hs => hint s (hsubset hs))
    readStreams_tornFrame).2 hread
  set complete := completeStreams written cut
  obtain ⟨big, hlength, hbig⟩ : ∃ big : List TokenId, big.length = 2 ^ 26 + 1 ∧
      ∀ t ∈ big, IsInt32 t := by
    refine ⟨List.replicate (2 ^ 26 + 1) 0, List.length_replicate, fun t ht => ?_⟩
    rw [List.eq_of_mem_replicate ht]
    decide
  have hbig_ne : big ≠ [] := by
    rw [← List.length_pos_iff, hlength]
    omega
  have hobserved : observed [.observe big, .reopen] = [big] := by
    simp [observed, Op.observed, hbig_ne]
  have hafter : total List.length (complete ++ [big]) ≤ config.maxTokens := by
    rw [total_append, total_cons, total_nil, hlength]
    omega
  have hreject : ¬ Loadable big := by
    rw [Loadable, hlength]
    omega
  have hstreams := hsurvives [.observe big, .reopen] (by simpa [hobserved] using hbig)
    (by rw [hobserved]; exact hafter)
  have hbehind := readStreams_frames (fun s hs => hne s (hsubset hs))
    (fun s hs => hint s (hsubset hs)) hshort (frame big)
  have hlost := readStreams_frame_reject hreject []
  rw [List.append_nil] at hlost
  rw [take_frames, streams_observe_reopen hread hbig_ne hafter, htorn, List.append_nil, hbehind,
    hlost, List.append_nil, fit_of_le hroom, hobserved] at hstreams
  have hcount : complete.length = (complete ++ [big]).length := congrArg List.length hstreams
  rw [List.length_append, List.length_singleton] at hcount
  omega

/-- A cut between two frames is survived, if no stream is too long for `load`. -/
theorem survivesCut_of_tornFrame_nil (hne : ∀ s ∈ written, s ≠ [])
    (hint : ∀ s ∈ written, ∀ t ∈ s, IsInt32 t) (htorn : tornFrame written cut = [])
    (hshort : ∀ s ∈ completeStreams written cut, s.length ≤ 2 ^ 26)
    (hlater : config.maxTokens - total List.length (completeStreams written cut) ≤ 2 ^ 26) :
    SurvivesCut config written cut := by
  intro later hlaterInt hbudget
  have hsubset := completeStreams_subset written cut
  set complete := completeStreams written cut
  have hroom := hbudget
  rw [total_append] at hroom
  have hopened : Represents config (load config (frames complete))
      (fit List.length config.maxTokens complete) :=
    load_frames (fun s hs => hne s (hsubset hs)) (fun s hs => hint s (hsubset hs)) hshort
  rw [fit_of_le (by omega)] at hopened
  have hall : ∀ s ∈ complete ++ observed later, s.length ≤ 2 ^ 26 := by
    intro s hs
    rcases List.mem_append.mp hs with hs | hs
    · exact hshort s hs
    · have hone : s.length ≤ total List.length (observed later) :=
        List.single_le_sum (by simp) _ (List.mem_map_of_mem hs)
      omega
  have hrun := hopened.run hlaterInt (Or.inr hall)
  rw [fit_of_le hbudget] at hrun
  rw [take_frames, htorn, List.append_nil]
  exact hrun.streams_eq

/-- A cut inside a frame is survived if the budget admits no further stream. -/
theorem survivesCut_of_full (hne : ∀ s ∈ written, s ≠ [])
    (hint : ∀ s ∈ written, ∀ t ∈ s, IsInt32 t)
    (hfull : config.maxTokens = total List.length (completeStreams written cut))
    (hshort : ∀ s ∈ completeStreams written cut, s.length ≤ 2 ^ 26) :
    SurvivesCut config written cut := by
  intro later _ hbudget
  have hsubset := completeStreams_subset written cut
  set complete := completeStreams written cut
  have hnone : observed later = [] := by
    by_contra hsome
    obtain ⟨s, hs⟩ := List.exists_mem_of_ne_nil _ hsome
    obtain ⟨op, -, hop⟩ := List.mem_flatMap.mp hs
    have hpos := List.length_pos_iff.mpr (Op.observed_ne_nil s hop)
    have hone : s.length ≤ total List.length (observed later) :=
      List.single_le_sum (by simp) _ (List.mem_map_of_mem hs)
    rw [total_append] at hbudget
    omega
  have hread := readStreams_frames (fun s hs => hne s (hsubset hs))
    (fun s hs => hint s (hsubset hs)) hshort (tornFrame written cut)
  rw [readStreams_tornFrame, List.append_nil] at hread
  rw [take_frames, run_of_observed_nil hread hfull.ge hnone, hnone, List.append_nil]
  exact (load_torn hread hfull.ge).1.streams_eq

/-- When a crash during a write is survived.  The cut must fall between two frames, unless
the budget admits no further stream; and no stream may be longer than `load` accepts,
neither a complete one nor one the budget admits later. -/
theorem survivesCut_iff (config : CorpusConfig) (written : List (List TokenId)) (cut : ℕ)
    (hne : ∀ s ∈ written, s ≠ []) (hint : ∀ s ∈ written, ∀ t ∈ s, IsInt32 t)
    (hroom : total List.length (completeStreams written cut) ≤ config.maxTokens) :
    SurvivesCut config written cut ↔
      (tornFrame written cut = [] ∨
        config.maxTokens = total List.length (completeStreams written cut)) ∧
      (∀ s ∈ completeStreams written cut, s.length ≤ 2 ^ 26) ∧
      config.maxTokens - total List.length (completeStreams written cut) ≤ 2 ^ 26 := by
  constructor
  · intro hsurvives
    refine ⟨?_, ?_, hsurvives.room_le hint hne hroom⟩
    · by_cases hfull : config.maxTokens = total List.length (completeStreams written cut)
      · exact Or.inr hfull
      · exact Or.inl (hsurvives.tornFrame_eq_nil hint hne (by omega))
    · exact (readStreams_frames_le (fun s hs => hint s (completeStreams_subset written cut hs))
        readStreams_tornFrame).2 (hsurvives.readStreams_eq hint hroom)
  · rintro ⟨htorn | hfull, hshort, hlater⟩
    · exact survivesCut_of_tornFrame_nil hne hint htorn hshort hlater
    · exact survivesCut_of_full hne hint hfull hshort

/-- A cut between two frames, with the default configuration. -/
theorem survivesCut_between_frames : SurvivesCut {} [[7, 8], [9]] 12 :=
  (survivesCut_iff {} [[7, 8], [9]] 12 (by decide) (by decide) (by decide +kernel)).mpr
    (by decide +kernel)

/-- A crash after the length word and the first token of a frame.  The stream `[5]` observed
afterwards is gone with the next restart, and a stream that nobody observed is loaded. -/
theorem torn_frame_read_as_stream :
    completeStreams [[7, 8]] 8 = [] ∧
      ((load {} ((frames [[7, 8]]).take 8)).run {} [.observe [5], .reopen]).streams = [[7, 1]] ∧
      ¬ SurvivesCut {} [[7, 8]] 8 := by
  have hloaded : ((load {} ((frames [[7, 8]]).take 8)).run {} [.observe [5], .reopen]).streams =
      [[7, 1]] := by
    decide +kernel
  refine ⟨by decide +kernel, hloaded, fun hsurvives => ?_⟩
  have hstreams := hsurvives [.observe [5], .reopen] (by decide) (by decide +kernel)
  rw [hloaded] at hstreams
  exact absurd hstreams (by decide +kernel)

end Survival

end CorpusIndex

end Reame.Palimpsest
