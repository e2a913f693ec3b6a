import Reame.Palimpsest.CorpusLog

/-!
# What the generation memory proposes

The reference for `draft` speaks of streams only: the tokens that follow the most recent
place where the last n-gram of the tail occurs and its stream goes on.  The corpus looks at
offsets under a hash, of which it keeps the last few; as long as no two n-grams in play share
a hash, the last of them is the place the reference means.
-/

namespace Reame.Palimpsest

open Retention

/-- The n-gram occurs in the stream at `i`, and the stream goes on after it. -/
def FollowedAt (n : ℕ) (gram stream : List TokenId) (i : ℕ) : Prop :=
  i + n < stream.length ∧ (stream.drop i).take n = gram

/-- The n-gram is followed somewhere. -/
def Followed (n : ℕ) (gram : List TokenId) (streams : List (List TokenId)) : Prop :=
  ∃ stream ∈ streams, ∃ i, FollowedAt n gram stream i

/-- Position `i` of `stream` is the most recent place where the n-gram is followed: it is the
last one in its stream, and there is none in the newer streams. -/
structure MostRecent (n : ℕ) (gram : List TokenId) (stream : List TokenId)
    (newer : List (List TokenId)) (i : ℕ) : Prop where
  followedAt : FollowedAt n gram stream i
  last : ∀ i', FollowedAt n gram stream i' → i' ≤ i
  none_newer : ¬ Followed n gram newer

/-- The last `n` tokens. -/
def lastGram (n : ℕ) (tail : List TokenId) : List TokenId := tail.drop (tail.length - n)

/-- The reference for `draft`. -/
structure IsReferenceDraft (n : ℕ) (streams : List (List TokenId)) (tail : List TokenId) (k : ℤ)
    (result : List TokenId) : Prop where
  nothing : k ≤ 0 ∨ tail.length < n ∨ ¬ Followed n (lastGram n tail) streams → result = []
  continuation : 0 < k → n ≤ tail.length → Followed n (lastGram n tail) streams →
    ∃ older stream newer i, streams = older ++ stream :: newer ∧
      MostRecent n (lastGram n tail) stream newer i ∧
      result = (stream.drop (i + n)).take k.toNat

/-- The n-grams of some streams. -/
def ngramsOf (n : ℕ) (streams : List (List TokenId)) : Set (List TokenId) :=
  {gram | ∃ stream ∈ streams, ∃ i, i + n ≤ stream.length ∧ (stream.drop i).take n = gram}

/-! ## Sites of an n-gram -/

theorem filter_range_last (p : ℕ → Bool) (m : ℕ) :
    ((List.range m).filter p = [] ∧ ∀ i < m, p i = false) ∨
      ∃ before i, (List.range m).filter p = before ++ [i] ∧ i < m ∧ p i = true ∧
        ∀ i' < m, p i' = true → i' ≤ i := by
  rcases List.eq_nil_or_concat ((List.range m).filter p) with hnil | ⟨before, i, hconcat⟩
  · refine Or.inl ⟨hnil, fun i hi => ?_⟩
    have hnone := List.filter_eq_nil_iff.mp hnil i (List.mem_range.mpr hi)
    simpa using hnone
  · rw [List.concat_eq_append] at hconcat
    have hi : i ∈ (List.range m).filter p := by
      rw [hconcat]
      simp
    have hsorted : ((List.range m).filter p).Pairwise (· < ·) :=
      List.pairwise_lt_range.filter p
    rw [hconcat, List.pairwise_append] at hsorted
    have hi := List.mem_filter.mp hi
    refine Or.inr ⟨before, i, hconcat, List.mem_range.mp hi.1, hi.2, fun i' hi' hp => ?_⟩
    have hmem : i' ∈ (List.range m).filter p := List.mem_filter.mpr ⟨List.mem_range.mpr hi', hp⟩
    rw [hconcat] at hmem
    rcases List.mem_append.mp hmem with hbefore | hlast
    · exact (hsorted.2.2 i' hbefore i (List.mem_singleton.mpr rfl)).le
    · exact (List.mem_singleton.mp hlast).le

/-- The offsets recorded for an n-gram, oldest first. -/
def offsetsOf (gram : List TokenId) (sites : List (List TokenId × ℕ)) : List ℕ :=
  (sites.filter fun site => site.1 = gram).map Prod.snd

theorem offsetsOf_append (gram : List TokenId) (sites later : List (List TokenId × ℕ)) :
    offsetsOf gram (sites ++ later) = offsetsOf gram sites ++ offsetsOf gram later := by
  rw [offsetsOf, List.filter_append, List.map_append, offsetsOf, offsetsOf]

/-- The last site of an n-gram in one stream. -/
theorem offsetsOf_sitesOf (n first : ℕ) (gram stream : List TokenId) :
    (offsetsOf gram (sitesOf n first stream) = [] ∧ ∀ i, ¬ FollowedAt n gram stream i) ∨
      ∃ before i, offsetsOf gram (sitesOf n first stream) = before ++ [first + i + n] ∧
        FollowedAt n gram stream i ∧ ∀ i', FollowedAt n gram stream i' → i' ≤ i := by
  have hoffsets : offsetsOf gram (sitesOf n first stream) =
      ((List.range (stream.length - n)).filter fun i => (stream.drop i).take n = gram).map
        fun i => first + i + n := by
    rw [offsetsOf, sitesOf, List.filter_map, List.map_map]
    rfl
  have hfollowed : ∀ i, FollowedAt n gram stream i ↔
      i < stream.length - n ∧ decide ((stream.drop i).take n = gram) = true := by
    intro i
    rw [FollowedAt, decide_eq_true_eq]
    exact and_congr_left fun _ => by omega
  rcases filter_range_last (fun i => (stream.drop i).take n = gram) (stream.length - n) with
    ⟨hnil, hnone⟩ | ⟨before, i, hlast, hi, hgram, hmax⟩
  · refine Or.inl ⟨by rw [hoffsets, hnil, List.map_nil], fun i hi => ?_⟩
    obtain ⟨hi, hgram⟩ := (hfollowed i).mp hi
    rw [hnone i hi] at hgram
    cases hgram
  · refine Or.inr ⟨before.map fun i => first + i + n, i, ?_, (hfollowed i).mpr ⟨hi, hgram⟩, ?_⟩
    · rw [hoffsets, hlast, List.map_append, List.map_singleton]
    · intro i' hi'
      obtain ⟨hlt, hgram'⟩ := (hfollowed i').mp hi'
      exact hmax i' hlt hgram'

/-- The last site of an n-gram is the most recent place where it is followed. -/
theorem offsetsOf_sitesFrom (n : ℕ) (gram : List TokenId) (streams : List (List TokenId)) :
    (offsetsOf gram (sitesFrom n 0 streams) = [] ∧ ¬ Followed n gram streams) ∨
      ∃ before older stream newer i, streams = older ++ stream :: newer ∧
        offsetsOf gram (sitesFrom n 0 streams) = before ++ [older.flatten.length + i + n] ∧
        MostRecent n gram stream newer i := by
  -- By induction from the newest stream back: a site in it is more recent than any other.
  induction streams using List.reverseRecOn with
  | nil => exact Or.inl ⟨rfl, by simp [Followed]⟩
  | append_singleton streams newest ih =>
      have hsplit : offsetsOf gram (sitesFrom n 0 (streams ++ [newest])) =
          offsetsOf gram (sitesFrom n 0 streams) ++
            offsetsOf gram (sitesOf n streams.flatten.length newest) := by
        rw [sitesFrom_append, offsetsOf_append, sitesFrom, sitesFrom, List.append_nil,
          Nat.zero_add]
      rcases offsetsOf_sitesOf n streams.flatten.length gram newest with
        ⟨hnil, hnone⟩ | ⟨before, i, hlast, hfollowed, hmax⟩
      · rw [hnil, List.append_nil] at hsplit
        rcases ih with ⟨hempty, hnever⟩ | ⟨before, older, stream, newer, i, rfl, hlast, hrecent⟩
        · refine Or.inl ⟨hsplit.trans hempty, ?_⟩
          rintro ⟨stream, hmem, i, hi⟩
          rcases List.mem_append.mp hmem with hmem | hmem
          · exact hnever ⟨stream, hmem, i, hi⟩
          · rw [List.mem_singleton.mp hmem] at hi
            exact hnone i hi
        · refine Or.inr ⟨before, older, stream, newer ++ [newest], i, ?_, hsplit.trans hlast,
            hrecent.followedAt, hrecent.last, ?_⟩
          · rw [List.append_assoc, List.cons_append]
          · rintro ⟨other, hmem, i', hi'⟩
            rcases List.mem_append.mp hmem with hmem | hmem
            · exact hrecent.none_newer ⟨other, hmem, i', hi'⟩
            · rw [List.mem_singleton.mp hmem] at hi'
              exact hnone i' hi'
      · refine Or.inr ⟨offsetsOf gram (sitesFrom n 0 streams) ++ before, streams, newest, [], i, rfl,
          ?_, hfollowed, hmax, by simp [Followed]⟩
        rw [hsplit, hlast, List.append_assoc]

/-! ## The index -/

theorem mem_sitesFrom {n first : ℕ} {streams : List (List TokenId)} {site : List TokenId × ℕ}
    (hsite : site ∈ sitesFrom n first streams) :
    site.1 ∈ ngramsOf n streams ∧ site.2 < first + streams.flatten.length := by
  induction streams generalizing first with
  | nil => cases hsite
  | cons stream later ih =>
      rw [List.flatten_cons, List.length_append]
      rcases List.mem_append.mp hsite with hsite | hsite
      · obtain ⟨i, hi, rfl⟩ := List.mem_map.mp hsite
        have hi := List.mem_range.mp hi
        exact ⟨⟨stream, List.mem_cons_self, i, by omega, rfl⟩, by omega⟩
      · obtain ⟨⟨other, hmem, hother⟩, hlt⟩ := ih hsite
        exact ⟨⟨other, List.mem_cons_of_mem stream hmem, hother⟩, by omega⟩

/-- The n-gram of a site ends at its offset. -/
theorem window_of_mem_sitesFrom {n : ℕ} {front : List TokenId} {streams : List (List TokenId)}
    {site : List TokenId × ℕ} (hsite : site ∈ sitesFrom n front.length streams) :
    ((front ++ streams.flatten).drop (site.2 - n)).take n = site.1 := by
  induction streams generalizing front with
  | nil => cases hsite
  | cons stream later ih =>
      rcases List.mem_append.mp hsite with hsite | hsite
      · obtain ⟨i, hi, rfl⟩ := List.mem_map.mp hsite
        have hi := List.mem_range.mp hi
        dsimp only
        rw [Nat.add_sub_cancel, List.flatten_cons, List.drop_length_add_append,
          List.drop_append_of_le_length (by omega),
          List.take_append_of_le_length (by rw [List.length_drop]; omega)]
      · rw [← List.length_append] at hsite
        have hwindow := ih hsite
        rwa [List.append_assoc] at hwindow

/-- Under an injective hash the bucket of an n-gram has the last of its own sites. -/
theorem buckets_sitesFrom (cap : ℕ) {n : ℕ} {streams : List (List TokenId)} {gram : List TokenId}
    (hinj : Set.InjOn ngramKey (insert gram (ngramsOf n streams)))
    (hsize : streams.flatten.length < 2 ^ 32) :
    buckets cap ((sitesFrom n 0 streams).map entryOf) (ngramKey gram) =
      keepLast cap (offsetsOf gram (sitesFrom n 0 streams)) := by
  have hfilter : (sitesFrom n 0 streams).filter
        ((fun entry => decide (entry.1 = ngramKey gram)) ∘ entryOf) =
      (sitesFrom n 0 streams).filter fun site => site.1 = gram := by
    refine List.filter_congr fun site hsite => ?_
    have hgram := (mem_sitesFrom hsite).1
    exact decide_eq_decide.mpr
      (hinj.eq_iff (Set.mem_insert_of_mem gram hgram) (Set.mem_insert gram _))
  have hoffsets : ∀ site ∈ (sitesFrom n 0 streams).filter (fun site => site.1 = gram),
      (Prod.snd ∘ entryOf) site = site.2 := by
    intro site hsite
    have hlt := (mem_sitesFrom (List.mem_filter.mp hsite).1).2
    exact Nat.mod_eq_of_lt (by omega)
  rw [buckets, offsetsOf, List.filter_map, List.map_map, hfilter, List.map_congr_left hoffsets]

theorem le_of_mem_endsFrom {first e : ℕ} {streams : List (List TokenId)}
    (hmem : e ∈ endsFrom first streams) : e ≤ first + streams.flatten.length := by
  induction streams generalizing first with
  | nil => cases hmem
  | cons stream later ih =>
      rw [List.flatten_cons, List.length_append]
      rcases List.mem_cons.mp hmem with rfl | hmem
      · omega
      · have hle := ih hmem
        omega

namespace CorpusIndex

variable {config : CorpusConfig} {corpus : CorpusIndex} {streams : List (List TokenId)}

/-- `stream_end_for` finds the stream an offset lies in. -/
theorem Lays.streamEndFor_eq {older newer : List (List TokenId)} {stream : List TokenId}
    (hlays : Lays corpus (older ++ stream :: newer)) {offset : ℕ}
    (hlow : older.flatten.length ≤ offset)
    (hhigh : offset < older.flatten.length + stream.length) :
    corpus.streamEndFor offset = older.flatten.length + stream.length := by
  have hbefore : (endsFrom 0 older).find? (fun streamEnd => offset < streamEnd) = none := by
    refine List.find?_eq_none.mpr fun e hmem => ?_
    have hle := le_of_mem_endsFrom hmem
    rw [decide_eq_true_eq]
    omega
  rw [streamEndFor, hlays.ends_eq, endsFrom_append, List.find?_append, hbefore, Nat.zero_add,
    endsFrom, List.find?_cons_of_pos (by simpa using hhigh)]
  rfl

/-- The site of a followed n-gram yields what follows it. -/
theorem Lays.draftAt_eq {older newer : List (List TokenId)} {stream tail : List TokenId} {i : ℕ}
    (hlays : Lays corpus (older ++ stream :: newer)) (hn : 1 ≤ config.ngram)
    (hfollowed : FollowedAt config.ngram (lastGram config.ngram tail) stream i) (k : ℕ) :
    corpus.draftAt config tail k (older.flatten.length + i + config.ngram) =
      some ((stream.drop (i + config.ngram)).take k) := by
  obtain ⟨hroom, hgram⟩ := hfollowed
  have hlog : corpus.log = older.flatten ++ (stream ++ newer.flatten) := by
    rw [hlays.log_eq, List.flatten_append, List.flatten_cons]
  have hend : corpus.streamEndFor (older.flatten.length + i + config.ngram - 1) =
      older.flatten.length + stream.length :=
    hlays.streamEndFor_eq (by omega) (by omega)
  have hwindow : (corpus.log.drop (older.flatten.length + i + config.ngram - config.ngram)).take
      config.ngram = lastGram config.ngram tail := by
    rw [Nat.add_sub_cancel, hlog, List.drop_length_add_append,
      List.drop_append_of_le_length (by omega),
      List.take_append_of_le_length (by rw [List.length_drop]; omega), hgram]
  have hrest : older.flatten.length + stream.length - (older.flatten.length + i + config.ngram) =
      (stream.drop (i + config.ngram)).length := by
    rw [List.length_drop]
    omega
  rw [draftAt]
  simp only [hend, hwindow, hrest]
  rw [if_neg (by omega), if_neg (by simp [lastGram]), hlog, Nat.add_assoc,
    List.drop_length_add_append, List.drop_append_of_le_length (by omega),
    List.take_append_of_le_length (Nat.min_le_left _ _), Nat.min_comm, ← List.take_eq_take_min]

/-- `draft` is the reference. -/
theorem Holds.draft_isReferenceDraft (hholds : Holds config corpus streams)
    (hn : 1 ≤ config.ngram) (hcap : 1 ≤ config.maxSitesPerNgram)
    (hsize : total List.length streams < 2 ^ 32) {tail : List TokenId}
    (hinj : Set.InjOn ngramKey
      (insert (lastGram config.ngram tail) (ngramsOf config.ngram streams))) (k : ℤ) :
    IsReferenceDraft config.ngram streams tail k (corpus.draft config tail k) := by
  rw [total_length] at hsize
  have hsites := buckets_sitesFrom config.maxSitesPerNgram hinj hsize
  rw [draft, hholds.index_eq, ← lastGram, hsites]
  rcases offsetsOf_sitesFrom config.ngram (lastGram config.ngram tail) streams with
    ⟨hnil, hnever⟩ | ⟨before, older, stream, newer, i, rfl, hlast, hrecent⟩
  · have hempty : keepLast config.maxSitesPerNgram ([] : List ℕ) = [] := by simp [keepLast]
    rw [hnil, hempty]
    exact ⟨fun _ => by simp, fun _ _ hfollowed => absurd hfollowed hnever⟩
  · obtain ⟨kept, hkept⟩ := keepLast_append_singleton hcap before
      (older.flatten.length + i + config.ngram)
    have hfollowed : Followed config.ngram (lastGram config.ngram tail)
        (older ++ stream :: newer) := ⟨stream, by simp, i, hrecent.followedAt⟩
    have hsearch : (kept ++ [older.flatten.length + i + config.ngram]).reverse.findSome?
        (corpus.draftAt config tail k.toNat) =
          some ((stream.drop (i + config.ngram)).take k.toNat) := by
      rw [List.reverse_concat, List.findSome?_cons,
        hholds.toLays.draftAt_eq hn hrecent.followedAt]
    rw [hlast, hkept]
    simp only [hsearch, Option.getD_some]
    constructor
    · rintro (hk | htail | hnever)
      · rw [if_pos (Or.inl hk)]
      · rw [if_pos (Or.inr htail)]
      · exact absurd hfollowed hnever
    · intro hk htail _
      rw [if_neg (by omega)]
      exact ⟨older, stream, newer, i, rfl, hrecent, rfl⟩

/-- A site of another n-gram yields nothing. -/
theorem Lays.draftAt_other (hlays : Lays corpus streams) {tail : List TokenId}
    {site : List TokenId × ℕ} (hsite : site ∈ sitesFrom config.ngram 0 streams)
    (hother : site.1 ≠ lastGram config.ngram tail) (k : ℕ) :
    corpus.draftAt config tail k site.2 = none := by
  have hwindow := @window_of_mem_sitesFrom config.ngram [] streams site hsite
  rw [List.nil_append, ← hlays.log_eq] at hwindow
  rw [draftAt, hwindow]
  split
  · rfl
  · rw [if_pos]
    exact fun hsame => hother hsame.symm

/-- Whatever the hash function does, `draft` proposes what followed the n-gram at its most recent
place, or nothing. -/
theorem Holds.draft_mostRecent (hholds : Holds config corpus streams) (hn : 1 ≤ config.ngram)
    (hsize : total List.length streams < 2 ^ 32) (tail : List TokenId) (k : ℤ) :
    corpus.draft config tail k = [] ∨
      ∃ older stream newer i, streams = older ++ stream :: newer ∧
        MostRecent config.ngram (lastGram config.ngram tail) stream newer i ∧
        corpus.draft config tail k = (stream.drop (i + config.ngram)).take k.toNat := by
  rw [total_length] at hsize
  set gram := lastGram config.ngram tail with hgram
  set probe := corpus.draftAt config tail k.toNat with hat
  set sites := sitesFrom config.ngram 0 streams with hsites
  set entries := ((sites.map entryOf).filter fun entry => entry.1 = ngramKey gram).map Prod.snd
    with hentriesDef
  -- Among the entries with the hash of the n-gram, those of other n-grams yield nothing.
  have hentries : entries.reverse.findSome? probe =
      (offsetsOf gram sites).reverse.findSome? probe := by
    rw [hentriesDef, ← List.head?_filterMap, ← List.head?_filterMap, List.filterMap_reverse,
      List.filterMap_reverse, offsetsOf, List.filter_map, List.map_map, List.filterMap_map,
      List.filterMap_map, List.filterMap_filter, List.filterMap_filter]
    congr 2
    refine List.filterMap_congr fun site hsite => ?_
    have hentry : entryOf site = (ngramKey site.1, site.2) := by
      have hlt := (mem_sitesFrom hsite).2
      rw [entryOf, Nat.mod_eq_of_lt (by omega)]
    by_cases hsame : site.1 = gram
    · simp [hsame, hentry]
    · have hnone : probe site.2 = none := hholds.toLays.draftAt_other hsite hsame k.toNat
      simp [hsame, hentry, hnone]
  have hindex : corpus.index (ngramKey gram) = keepLast config.maxSitesPerNgram entries := by
    rw [hholds.index_eq]
    rfl
  rw [draft, ← lastGram, ← hgram, hindex, ← hat]
  by_cases hguard : k ≤ 0 ∨ tail.length < config.ngram
  · rw [if_pos hguard]
    exact .inl rfl
  · rw [if_neg hguard]
    dsimp only
    rcases findSome?_keepLast probe config.maxSitesPerNgram entries with hnone | hfound
    · rw [hnone]
      exact .inl rfl
    · rw [hfound, hentries]
      rcases offsetsOf_sitesFrom config.ngram gram streams with
        ⟨hnil, -⟩ | ⟨before, older, stream, newer, i, hstreams, hlast, hrecent⟩
      · rw [hsites, hnil]
        exact .inl rfl
      · subst hstreams
        have hhere : probe (older.flatten.length + i + config.ngram) =
            some ((stream.drop (i + config.ngram)).take k.toNat) :=
          hholds.toLays.draftAt_eq hn hrecent.followedAt k.toNat
        rw [hsites, hlast, List.reverse_concat, List.findSome?_cons, hhere]
        exact .inr ⟨older, stream, newer, i, rfl, hrecent, rfl⟩

variable (config corpus) in
/-- A draft is no longer than it was asked to be. -/
theorem length_draft_le (tail : List TokenId) (k : ℤ) :
    (corpus.draft config tail k).length ≤ k.toNat := by
  rw [draft]
  split
  · exact Nat.zero_le _
  · dsimp only
    cases hfound : List.findSome? (corpus.draftAt config tail k.toNat)
        (corpus.index (ngramKey (tail.drop (tail.length - config.ngram)))).reverse with
    | none => exact Nat.zero_le _
    | some proposed =>
        obtain ⟨start, -, hstart⟩ := List.exists_of_findSome?_eq_some hfound
        rw [draftAt] at hstart
        split at hstart
        · cases hstart
        · split at hstart
          · cases hstart
          · cases hstart
            rw [Option.getD_some, List.length_take]
            exact (Nat.min_le_left _ _).trans (Nat.min_le_right _ _)

/-- A draft reads the log, the ends and the index. -/
theorem Holds.draft_congr {other : CorpusIndex} (hholds : Holds config corpus streams)
    (hother : Holds config other streams) (tail : List TokenId) (k : ℤ) :
    other.draft config tail k = corpus.draft config tail k := by
  have hlog : other.log = corpus.log := hother.log_eq.trans hholds.log_eq.symm
  have hends : other.streamEnds = corpus.streamEnds := hother.ends_eq.trans hholds.ends_eq.symm
  have hindex : other.index = corpus.index := hother.index_eq.trans hholds.index_eq.symm
  cases corpus
  cases other
  subst hlog hends hindex
  rfl

/-! ## The refinement -/

/-- The corpus refines its reference.  Over any run of a fresh corpus, what it retains is the
longest suffix of the observed streams that fits the budget; every draft is the reference's;
and closing and opening changes neither. -/
theorem run_refines_reference (config : CorpusConfig) (hn : 1 ≤ config.ngram)
    (hcap : 1 ≤ config.maxSitesPerNgram) (hbytes : config.maxLogBytes ≤ 2 ^ 28) (ops : List Op)
    (hint : ∀ s ∈ observed ops, ∀ t ∈ s, IsInt32 t) :
    let corpus := (load config []).run config ops
    IsLongestFitting List.length config.maxTokens (observed ops) corpus.streams ∧
      (∀ tail k, Set.InjOn ngramKey
          (insert (lastGram config.ngram tail) (ngramsOf config.ngram (observed ops))) →
        IsReferenceDraft config.ngram corpus.streams tail k (corpus.draft config tail k)) ∧
      (corpus.reopen config).streams = corpus.streams ∧
      ∀ tail k, (corpus.reopen config).draft config tail k = corpus.draft config tail k := by
  have hbudget : config.maxTokens ≤ 2 ^ 26 := by
    rw [CorpusConfig.maxTokens]
    omega
  have hrep := (load_nil config).run hint (Or.inl hbudget)
  rw [List.nil_append] at hrep
  intro corpus
  have hreopen := hrep.reopen fun s hs => (hrep.length_le hs).trans hbudget
  have hsubset : ngramsOf config.ngram (fit List.length config.maxTokens (observed ops)) ⊆
      ngramsOf config.ngram (observed ops) := by
    rintro gram ⟨stream, hmem, hgram⟩
    exact ⟨stream, (fit_suffix _).subset hmem, hgram⟩
  have hfits := hrep.fits
  rw [hrep.streams_eq, hreopen.streams_eq]
  refine ⟨fit_isLongestFitting _, ?_, rfl, hrep.draft_congr hreopen.toHolds⟩
  intro tail k hinj
  exact hrep.draft_isReferenceDraft hn hcap (by omega)
    (hinj.mono (Set.insert_subset_insert hsubset)) k

/-- A corpus of at most eight tokens: of three streams it retains the last two, also over a
restart. -/
theorem run_refines_reference_restart :
    let config : CorpusConfig := { ngram := 2, maxLogBytes := 32 }
    let streams : List (List TokenId) := [[1, 2, 3, 4], [5, 1, 2, 6], [2, 3, 7]]
    let ops : List Op := streams.map .observe ++ [.flush, .reopen]
    let corpus := (load config []).run config ops
    corpus.streams = [[5, 1, 2, 6], [2, 3, 7]] ∧
      corpus.draft config [9, 1, 2] 2 = [6] ∧
      IsLongestFitting List.length config.maxTokens streams corpus.streams ∧
      IsReferenceDraft 2 corpus.streams [9, 1, 2] 2 (corpus.draft config [9, 1, 2] 2) := by
  intro config streams ops corpus
  obtain ⟨hlongest, hdraft, -⟩ := run_refines_reference config (by decide) (by decide) (by decide)
    ops (by decide)
  refine ⟨by decide +kernel, by decide +kernel, hlongest, hdraft [9, 1, 2] 2 ?_⟩
  -- The n-grams are these six, and no two of them share a key.
  have hgrams : ∀ gram ∈ insert (lastGram 2 [9, 1, 2]) (ngramsOf 2 streams),
      gram ∈ ([[1, 2], [2, 3], [3, 4], [5, 1], [2, 6], [3, 7]] : List (List TokenId)) := by
    rintro gram (rfl | ⟨stream, hmem, i, hi, rfl⟩)
    · decide
    · rcases List.mem_cons.mp hmem with rfl | hmem
      · have hi : i ≤ 2 := by simpa using hi
        interval_cases i <;> decide
      rcases List.mem_cons.mp hmem with rfl | hmem
      · have hi : i ≤ 2 := by simpa using hi
        interval_cases i <;> decide
      obtain rfl := List.mem_singleton.mp hmem
      have hi : i < 2 := by simpa using hi
      interval_cases i <;> decide
  intro gram hgram other hother hkey
  exact List.inj_on_of_nodup_map (by decide +kernel) (hgrams gram hgram) (hgrams other hother) hkey

end CorpusIndex

end Reame.Palimpsest
