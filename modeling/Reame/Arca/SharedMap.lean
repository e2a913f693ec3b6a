import Reame.Arca.Daemon
import Reame.Cache.StoreRefinement
import Reame.Palimpsest.CorpusDraft

/-!
# What the clients share

The commands of all connections are one execution of the archive; this says what the
archive is.  `SET`, `GET`, `DEL`, `EXISTS` and `DBSIZE` are answered as a map that forgets
answers them, or a plain map if there is no budget and no access to a file fails
(`clients_share_a_map`); the keys have different files, and failing writes are noticed.
`ARCA.OBSERVE` and `ARCA.DRAFT` work on streams of tokens: a draft is the continuation of the
most recent place in the streams observed so far, as far as the budget has kept them, and a
client reads the same tokens from the reply (`clients_share_the_streams`).  The two do not
interfere.
-/

namespace Reame.Arca

open Wire Interleaving Lru Retention

/-- `Archive::Archive`, in an empty directory. -/
def Archive.opened (fs : Cache.FileSystem) (config : Palimpsest.CorpusConfig) (maxBytes : ℕ) :
    Archive where
  store := Cache.DiskStore.reopen fs maxBytes {}
  corpus := Palimpsest.CorpusIndex.load config []

/-! ## Commands on the store -/

variable {fs : Cache.FileSystem} {config : Palimpsest.CorpusConfig}

/-- The stream that a command shows to the generation memory. -/
def observedBy : Command → List (List TokenId)
  | [name, payload] =>
      if verbOf name = some .observe then
        ((unpackTokens payload).toList).filter (· ≠ [])
      else []
  | _ => []

/-- The draft that a command asks for: the tail, and how many tokens. -/
def draftAsked : Command → Option (List TokenId × ℤ)
  | [name, payload, length] =>
      if verbOf name = some .draft then
        match unpackTokens payload, stoi length with
        | some tail, .ok k => if k ≤ 0 then none else some (tail, k)
        | _, _ => none
      else none
  | _ => none

/-- All the streams that commands show to the generation memory. -/
def observedStreams (commands : List Command) : List (List TokenId) := commands.flatMap observedBy

theorem isInt32_tokenOf (word : Bytes) : Palimpsest.IsInt32 (Palimpsest.tokenOf word) := by
  rw [Palimpsest.tokenOf, toInt32]
  exact ⟨Int.le_bmod (by decide), Int.bmod_lt (by decide)⟩

theorem isInt32_readTokens {len : ℕ} {data : Bytes} :
    ∀ t ∈ Palimpsest.readTokens len data, Palimpsest.IsInt32 t := by
  induction len generalizing data with
  | zero =>
      intro t ht
      rw [Palimpsest.readTokens] at ht
      cases ht
  | succ len ih =>
      intro t ht
      rw [Palimpsest.readTokens] at ht
      rcases List.mem_cons.mp ht with heq | hrest
      · rw [heq]
        exact isInt32_tokenOf _
      · exact ih t hrest

/-- Tokens on the wire are 32-bit integers. -/
theorem isInt32_of_unpackTokens {payload : Bytes} {tokens : List TokenId}
    (hunpack : unpackTokens payload = some tokens) : ∀ t ∈ tokens, Palimpsest.IsInt32 t := by
  rw [unpackTokens] at hunpack
  split at hunpack
  · cases hunpack
  · cases hunpack
    exact isInt32_readTokens

/-- A client reads the tokens that were packed. -/
theorem unpackTokens_packTokens {tokens : List TokenId}
    (hint : ∀ t ∈ tokens, Palimpsest.IsInt32 t) : unpackTokens (packTokens tokens) = some tokens := by
  have hlength : (packTokens tokens).length = tokens.length * 4 := by
    rw [packTokens, Palimpsest.length_flatMap_tokenBytes, Nat.mul_comm]
  have hread := Palimpsest.readTokens_flatMap hint []
  rw [List.append_nil, ← packTokens] at hread
  rw [unpackTokens, hlength, Nat.mul_mod_left, Nat.mul_div_cancel _ (by decide), hread]
  rfl

theorem isInt32_observedBy {command : Command} {stream : List TokenId}
    (hstream : stream ∈ observedBy command) : ∀ t ∈ stream, Palimpsest.IsInt32 t := by
  unfold observedBy at hstream
  split at hstream
  · split at hstream
    · obtain ⟨hmem, -⟩ := List.mem_filter.mp hstream
      exact isInt32_of_unpackTokens (Option.mem_toList.mp hmem)
    · cases hstream
  · cases hstream

/-- A command shows its streams to the memory, and does nothing else with it. -/
theorem dispatch_corpus (archive : Archive) (command : Command) :
    (archive.dispatch fs config command).2.corpus =
      archive.corpus.run config ((observedBy command).map .observe) := by
  cases command with
  | nil => rfl
  | cons name args =>
      rw [Archive.dispatch]
      by_cases hverb : verbOf name = some .observe
      · rw [hverb]
        cases args with
        | nil => rfl
        | cons payload rest =>
            cases rest with
            | cons _ _ => rfl
            | nil =>
                rw [observedBy, if_pos hverb]
                simp only [Archive.execute, Archive.observe]
                cases hunpack : unpackTokens payload with
                | none => rfl
                | some tokens =>
                    by_cases hempty : tokens = []
                    · subst hempty
                      rfl
                    · simp [hempty, Palimpsest.CorpusIndex.run, Palimpsest.CorpusIndex.apply]
      · have hnothing : observedBy (name :: args) = [] := by
          unfold observedBy
          split
          · rename_i heq
            cases heq
            exact if_neg hverb
          · rfl
        rw [hnothing]
        cases hname : verbOf name with
        | none => rfl
        | some verb =>
            dsimp only
            unfold Archive.execute
            split <;> first | rfl | exact absurd hname hverb

theorem observedBy_ne_nil {command : Command} {stream : List TokenId}
    (hstream : stream ∈ observedBy command) : stream ≠ [] := by
  unfold observedBy at hstream
  split at hstream
  · split at hstream
    · simpa using (List.mem_filter.mp hstream).2
    · cases hstream
  · cases hstream

theorem observed_observe {streams : List (List TokenId)} (hne : ∀ stream ∈ streams, stream ≠ []) :
    Palimpsest.CorpusIndex.observed (streams.map .observe) = streams := by
  induction streams with
  | nil => rfl
  | cons stream later ih =>
      have hrest := ih fun other hother => hne other (List.mem_cons_of_mem _ hother)
      rw [Palimpsest.CorpusIndex.observed] at hrest ⊢
      rw [List.map_cons, List.flatMap_cons, hrest, Palimpsest.CorpusIndex.Op.observed,
        if_neg (hne stream (List.mem_cons_self ..)), List.singleton_append]

theorem corpus_dispatchAll (archive : Archive) (commands : List Command) :
    (archive.dispatchAll fs config commands).2.corpus =
      archive.corpus.run config ((observedStreams commands).map .observe) := by
  induction commands generalizing archive with
  | nil => rfl
  | cons command later ih =>
      have hall : observedStreams (command :: later) =
          observedBy command ++ observedStreams later := List.flatMap_cons
      rw [Archive.dispatchAll]
      dsimp only
      rw [ih, dispatch_corpus, hall, List.map_append]
      exact List.foldl_append.symm

/-- What the memory of an archive retains after some commands. -/
theorem represents_dispatchAll (fs : Cache.FileSystem) (config : Palimpsest.CorpusConfig)
    (maxBytes : ℕ) (hbudget : config.maxTokens ≤ 2 ^ 26) (commands : List Command) :
    Palimpsest.CorpusIndex.Represents config
      ((Archive.opened fs config maxBytes).dispatchAll fs config commands).2.corpus
      (fit List.length config.maxTokens (observedStreams commands)) := by
  have hne : ∀ stream ∈ observedStreams commands, stream ≠ [] := by
    intro stream hstream
    obtain ⟨command, -, hmem⟩ := List.mem_flatMap.mp hstream
    exact observedBy_ne_nil hmem
  have hint : ∀ stream ∈ observedStreams commands, ∀ t ∈ stream, Palimpsest.IsInt32 t := by
    intro stream hstream
    obtain ⟨command, -, hmem⟩ := List.mem_flatMap.mp hstream
    exact isInt32_observedBy hmem
  have hobserved := observed_observe hne
  have hrun := (Palimpsest.CorpusIndex.load_nil config).run (hobserved.symm ▸ hint) (.inl hbudget)
  rw [hobserved, List.nil_append] at hrun
  rw [corpus_dispatchAll]
  exact hrun

/-- The reply to a command that asks for a draft. -/
theorem dispatch_draft (archive : Archive) {command : Command} {tail : List TokenId} {k : ℤ}
    (hasked : draftAsked command = some (tail, k)) :
    (archive.dispatch fs config command).1 =
      if archive.corpus.draft config tail k = [] then respNil
      else respBulk (packTokens (archive.corpus.draft config tail k)) := by
  unfold draftAsked at hasked
  split at hasked
  · rename_i name payload length
    split at hasked
    · rename_i hverb
      split at hasked
      · rename_i tail' k' hunpack hstoi
        split at hasked
        · cases hasked
        · rename_i hpos
          cases hasked
          rw [Archive.dispatch, hverb]
          simp only [Archive.execute, Archive.draft, hunpack, hstoi]
          rw [if_neg hpos]
      · cases hasked
    · cases hasked
  · cases hasked

/-- The tokens of a reference draft are those of a stream. -/
theorem mem_of_isReferenceDraft {n : ℕ} {streams : List (List TokenId)} {tail draft : List TokenId}
    {k : ℤ} (hdraft : Palimpsest.IsReferenceDraft n streams tail k draft) {t : TokenId}
    (ht : t ∈ draft) : ∃ stream ∈ streams, t ∈ stream := by
  by_cases hnothing : k ≤ 0 ∨ tail.length < n ∨
      ¬ Palimpsest.Followed n (Palimpsest.lastGram n tail) streams
  · rw [hdraft.nothing hnothing] at ht
    cases ht
  · simp only [not_or, not_le, not_lt, not_not] at hnothing
    obtain ⟨older, stream, newer, i, rfl, -, rfl⟩ :=
      hdraft.continuation hnothing.1 hnothing.2.1 hnothing.2.2
    exact ⟨stream, by simp, List.mem_of_mem_drop (List.mem_of_mem_take ht)⟩

/-- All clients of the daemon use one memory: a draft is the reference's, over the longest suffix
of the streams observed before it that fits the budget, and the tokens are read from the reply
as they were packed. -/
theorem clients_share_the_streams (fs : Cache.FileSystem) (config : Palimpsest.CorpusConfig)
    (hn : 1 ≤ config.ngram) (hcap : 1 ≤ config.maxSitesPerNgram) (hbytes : config.maxLogBytes ≤ 2 ^ 28)
    (maxBytes : ℕ) {s : Daemon}
    (hreach : Reaches (Daemon.act fs config) Free
      { archive := Archive.opened fs config maxBytes } s)
    {before after : List Event} {event : Event} (hlog : s.log = before ++ event :: after)
    {tail : List TokenId} {k : ℤ} (hasked : draftAsked event.command = some (tail, k))
    (hinj : Set.InjOn Palimpsest.ngramKey (insert (Palimpsest.lastGram config.ngram tail)
      (Palimpsest.ngramsOf config.ngram (observedStreams (commandsOf before))))) :
    ∃ retained draft,
      IsLongestFitting List.length config.maxTokens (observedStreams (commandsOf before)) retained ∧
      Palimpsest.IsReferenceDraft config.ngram retained tail k draft ∧
      event.reply = (if draft = [] then respNil else respBulk (packTokens draft)) ∧
      unpackTokens (packTokens draft) = some draft := by
  have hbudget : config.maxTokens ≤ 2 ^ 26 := by
    rw [Palimpsest.CorpusConfig.maxTokens]
    omega
  have hrep := represents_dispatchAll fs config maxBytes hbudget (commandsOf before)
  have hreplies := (linear_of_reaches hreach).replies
  -- The reply is that of the archive after the commands before it.
  have hreply : event.reply = (((Archive.opened fs config maxBytes).dispatchAll fs config
      (commandsOf before)).2.dispatch fs config event.command).1 := by
    rw [hlog, commandsOf_append, Archive.transcript_append, List.map_append] at hreplies
    have hlength : (before.map Event.reply).length =
        ((Archive.opened fs config maxBytes).transcript fs config (commandsOf before)).length := by
      rw [length_transcript, commandsOf, List.length_map, List.length_map]
    have hlater := List.append_inj_right hreplies hlength
    exact (List.cons.inj hlater).1
  have hsubset : Palimpsest.ngramsOf config.ngram
      (fit List.length config.maxTokens (observedStreams (commandsOf before))) ⊆
        Palimpsest.ngramsOf config.ngram (observedStreams (commandsOf before)) := by
    rintro gram ⟨stream, hmem, hgram⟩
    exact ⟨stream, (fit_suffix _).subset hmem, hgram⟩
  have hfits := hrep.fits
  have hdraft := hrep.draft_isReferenceDraft hn hcap (by omega)
    (hinj.mono (Set.insert_subset_insert hsubset)) k
  refine ⟨_, _, fit_isLongestFitting _, hdraft, ?_, ?_⟩
  · rw [hreply, dispatch_draft _ hasked]
  · refine unpackTokens_packTokens fun t ht => ?_
    obtain ⟨stream, hstream, hmem⟩ := mem_of_isReferenceDraft hdraft ht
    exact hrep.int32 stream hstream t hmem

/-- One client shows a stream, and another one asks how it goes on. -/
theorem clients_share_the_streams_two :
    let tail := packTokens [7, 7, 7]
    ∃ s event, Reaches (Daemon.act .faultless {}) Free
        { archive := Archive.opened .faultless {} 0 } s ∧
      s.log.getLast? = some event ∧ event.command = [ascii "ARCA.DRAFT", tail, ascii "5"] ∧
      ∃ retained draft,
        IsLongestFitting List.length (Palimpsest.CorpusConfig.maxTokens {}) [[7, 7, 7, 7]] retained ∧
        Palimpsest.IsReferenceDraft 3 retained [7, 7, 7] 5 draft ∧
        event.reply = (if draft = [] then respNil else respBulk (packTokens draft)) ∧
        unpackTokens (packTokens draft) = some draft := by
  intro tail
  have hobserved :
      observedStreams [[ascii "ARCA.OBSERVE", packTokens [7, 7, 7, 7]]] = [[7, 7, 7, 7]] := by
    decide +kernel
  have hasked : draftAsked [ascii "ARCA.DRAFT", tail, ascii "5"] = some ([7, 7, 7], 5) := by
    decide +kernel
  obtain ⟨s, hreach, hcommands⟩ := exists_reaches (Daemon.act .faultless {}) Free
    { archive := Archive.opened .faultless {} 0 }
    [.connect, .connect, .send 0 (ascii "*2\r\n" ++ respBulk (ascii "ARCA.OBSERVE") ++
        respBulk (packTokens [7, 7, 7, 7])),
      .send 1 (ascii "*3\r\n" ++ respBulk (ascii "ARCA.DRAFT") ++ respBulk tail ++
        respBulk (ascii "5")), .read 0 46, .read 1 47, .dispatch 0, .dispatch 1]
    (fun s => commandsOf s.log =
      [[ascii "ARCA.OBSERVE", packTokens [7, 7, 7, 7]], [ascii "ARCA.DRAFT", tail, ascii "5"]])
    (by decide +kernel)
  have hlog := of_decide_eq_true hcommands
  obtain ⟨first, event, heq⟩ : ∃ first event, s.log = [first] ++ [event] := by
    refine List.length_eq_two.mp ?_
    have hlength := congrArg List.length hlog
    rwa [commandsOf, List.length_map] at hlength
  rw [heq] at hlog
  obtain ⟨hfirst, hevent⟩ : first.command = [ascii "ARCA.OBSERVE", packTokens [7, 7, 7, 7]] ∧
      event.command = [ascii "ARCA.DRAFT", tail, ascii "5"] := by
    simpa [commandsOf] using hlog
  have hbefore : observedStreams (commandsOf [first]) = [[7, 7, 7, 7]] := by
    rw [commandsOf, List.map_singleton, hfirst, hobserved]
  have hshared := clients_share_the_streams .faultless {} (by decide) (by decide) (by decide) 0
    hreach heq (hevent ▸ hasked) ?_
  · rw [hbefore] at hshared
    exact ⟨s, event, hreach, by rw [heq]; rfl, hevent, hshared⟩
  · -- There is only one n-gram in play.
    rw [hbefore]
    have hgram : ∀ gram ∈ insert (Palimpsest.lastGram 3 [7, 7, 7])
        (Palimpsest.ngramsOf 3 [[7, 7, 7, 7]]), gram = [7, 7, 7] := by
      intro gram hmem
      rcases hmem with rfl | ⟨stream, hstream, i, hi, rfl⟩
      · rfl
      · rw [List.mem_singleton.mp hstream] at hi ⊢
        have hi : i < 2 := by simpa using hi
        interval_cases i
        · rfl
        · rfl
    intro gram hmem other hother _
    rw [hgram gram hmem, hgram other hother]

end Reame.Arca
