import Reame.Engine.ClassicCache
import Reame.Cache.RoundTrip

/-!
# Warming ahead

`warm` prefills a whole prompt into the disk cache, so that a later request restores it.
The request prefills the prompt without its last token, and the boundaries of the two
lists differ.

* `warm` stores snapshots at the multiples of the block size and at the length of the
  prompt (`prefill_fresh`).
* The request first looks for a snapshot of its whole list, which is one token shorter
  (`prefill_eq_full_iff`).

So the request is a full hit exactly if the block size divides that shorter length and the
snapshot that `warm` stores last does not take its file (`warm_full_hit_iff`).  For all
other prompts the snapshot at the full length is never looked for.
-/

namespace Reame.Cache

/-! ## Keys -/

/-- The count at the end of a key can be read back. -/
theorem count_of_hashedKey {kind kind' modelTag modelTag' : Bytes} {tokens tokens' : List TokenId}
    (heq : hashedKey kind modelTag tokens = hashedKey kind' modelTag' tokens') :
    tokens.length = tokens'.length := by
  have hcount : ∀ (front : Bytes) (n : ℕ),
      ((front ++ ascii "-n" ++ Wire.decimal n).reverse.takeWhile Wire.isDigit).reverse =
        Wire.decimal n := by
    intro front n
    have hdigits : ∀ b ∈ (Wire.decimal n).reverse, Wire.isDigit b = true := fun b hb =>
      Wire.isDigit_of_mem_decimal (List.mem_reverse.mp hb)
    have hmark : (ascii "-n").reverse = [110, 45] := rfl
    calc ((front ++ ascii "-n" ++ Wire.decimal n).reverse.takeWhile Wire.isDigit).reverse
        = (((Wire.decimal n).reverse ++ ([110, 45] ++ front.reverse)).takeWhile
            Wire.isDigit).reverse := by
          rw [List.reverse_append, List.reverse_append, hmark]
      _ = ((Wire.decimal n).reverse ++ []).reverse := by
          rw [List.takeWhile_append_of_pos hdigits, List.cons_append,
            List.takeWhile_cons_of_neg (by decide)]
      _ = Wire.decimal n := by rw [List.append_nil, List.reverse_reverse]
  have hdecimal : Wire.decimal tokens.length = Wire.decimal tokens'.length := by
    unfold hashedKey at heq
    dsimp only at heq
    rw [← hcount, heq, hcount]
  calc tokens.length
      = Wire.digitsValue (Wire.decimal tokens.length) := (Wire.digitsValue_decimal _).symm
    _ = Wire.digitsValue (Wire.decimal tokens'.length) := by rw [hdecimal]
    _ = tokens'.length := Wire.digitsValue_decimal _

/-! ## What the store hands back -/

namespace DiskStore

variable {fs : FileSystem} {s : DiskStore} {key other data : Bytes}

theorem Sound.weaken {good : Bytes → Bytes → Prop} (hsound : s.Sound good) :
    s.Sound fun _ _ => True := by
  refine ⟨⟨hsound.names, fun item hitem => ?_⟩, hsound.entries⟩
  obtain ⟨key, data, hname, hcontent, hlength, -⟩ := hsound.files item hitem
  exact ⟨key, data, hname, hcontent, hlength, trivial⟩

/-- A file that holds another key hides an entry. -/
theorem get_of_foreign_file (hpaths : ∀ e, s.entries.lookup key = some e → e.path = pathFor key)
    (hother : other.length < 2 ^ 32) (hne : other ≠ key) {mtime : ℕ}
    (hfile : s.disk.files.lookup (pathFor key) = some ⟨encodeFile other data, mtime⟩) :
    (s.get fs key).1 = none := by
  cases hget : (s.get fs key).1 with
  | none => rfl
  | some payload =>
      obtain ⟨e, file, hlookup, hfound, hread⟩ := get_eq_some hget
      rw [hpaths e hlookup, hfile, Option.some.injEq] at hfound
      subst hfound
      exact absurd (readEntry_encodeFile hother hread).1.symm hne

/-- An entry that was left alone is there. -/
theorem Undisturbed.inStore {others : Set Bytes} (hs : Undisturbed others key data s)
    (hsound : s.Sound fun _ _ => True) : InStore key data s := by
  obtain ⟨e, hlookup, -⟩ := hs.entry
  obtain ⟨mtime, hfile⟩ := hs.file
  have hnamed := hsound.named
  refine ⟨hnamed, ⟨fun item hitem => ?_, fun e' he' => ?_⟩, ?_, mtime, hfile⟩
  · by_cases hstored : storedKey item.2.content = some key
    · have hname := hnamed.keys item hitem key hstored
      have hsame : item = (pathFor key, ⟨encodeFile key data, mtime⟩) :=
        List.inj_on_of_nodup_map hnamed.names hitem (mem_of_lookup hfile) hname
      exact .inl ⟨hname, by rw [hsame]⟩
    · exact .inr hstored
  · obtain ⟨-, hpath, hsize⟩ := hsound.entries _ he'
    exact ⟨hpath, hsize _ data (mem_of_lookup hfile) rfl⟩
  · rw [DiskStore.contains, hlookup]
    rfl

/-- The store goes on, or a new one is opened on its directory and reads all of it. -/
def ContinuedBy (s after : DiskStore) (fs : FileSystem) : Prop :=
  (∀ access, fs.readFails access = false) ∧ (after = s ∨ ∃ maxBytes, after = reopen fs maxBytes s.disk)

theorem ContinuedBy.sound {after : DiskStore} {good : Bytes → Bytes → Prop}
    (hafter : s.ContinuedBy after fs) (hsound : s.Sound good) : after.Sound good := by
  rcases hafter with ⟨-, rfl | ⟨maxBytes, rfl⟩⟩
  · exact hsound
  · exact sound_reopen fs maxBytes hsound.toSound

theorem ContinuedBy.files {after : DiskStore} (hafter : s.ContinuedBy after fs) :
    after.disk.files = s.disk.files := by
  rcases hafter with ⟨-, rfl | ⟨maxBytes, rfl⟩⟩ <;> rfl

theorem ContinuedBy.inStore {after : DiskStore} (hafter : s.ContinuedBy after fs)
    (hs : InStore key data s) (hshort : key.length ≤ 4096) : InStore key data after := by
  rcases hafter with ⟨hread, rfl | ⟨maxBytes, rfl⟩⟩
  · exact hs
  · have hkeeps : s.Keeps fs key (.reopen maxBytes) := trivial
    exact hs.apply hread hshort hkeeps

end DiskStore

/-! ## What a prefill stores -/

namespace PrefixCache

variable {K : Type*} (cache : PrefixCache) (platform : Platform) (backend : StatefulBackend K)

/-- The snapshots of a token sequence at some boundaries, one put after the other. -/
def snapshotOps (compressed : Bool) (tokens : List TokenId) (marks : List ℕ) : List StoreOp :=
  marks.map fun b => .put (cache.keyFor tokens b)
    (envelope (pack platform.zstd compressed (backend.stateData (tokens.take b).zipIdx)) b)

variable {cache platform backend} {tokens : List TokenId}

variable (cache platform backend) in
theorem storeState_run (m : CacheManager) {kv : KvState} {b : ℕ}
    (hkv : kv.Holds (tokens.take b)) :
    (m.storeState platform backend (cache.keyFor tokens b) kv b).2.store =
        m.store.run platform.fs (cache.snapshotOps platform backend m.compressed tokens [b]) ∧
      (m.storeState platform backend (cache.keyFor tokens b) kv b).2.compressed = m.compressed := by
  constructor
  · rw [(CacheManager.storeState_put platform backend m (cache.keyFor tokens b) kv b).2, hkv.1]
    rfl
  · unfold CacheManager.storeState
    dsimp only
    split <;> rfl

variable (cache platform backend) in
/-- The block-wise loop stores the boundaries it crosses. -/
theorem decodeBlocks_store (hlength : tokens.length ≤ 2 ^ 31) :
    ∀ (marks : List ℕ) (pos : ℕ) (m : CacheManager) (kv : KvState), marks.Pairwise (· < ·) →
      (∀ b ∈ marks, pos < b ∧ b ≤ tokens.length) → kv.Holds (tokens.take pos) →
      ∃ m' kv', cache.decodeBlocks platform backend tokens 0 marks pos m kv = (.ok (), m', kv') ∧
        m'.store = m.store.run platform.fs
          (cache.snapshotOps platform backend m.compressed tokens marks) := by
  intro marks
  induction marks with
  | nil =>
      intro pos m kv _ _ _
      exact ⟨m, kv, rfl, rfl⟩
  | cons b rest ih =>
      intro pos m kv hsorted hmarks hkv
      obtain ⟨hfirst, hsorted'⟩ := List.pairwise_cons.mp hsorted
      obtain ⟨hlt, hb⟩ := hmarks b (List.mem_cons_self ..)
      obtain ⟨logits, kv', hdecode, hholds⟩ := decodeAppend_block hlength backend hlt hb hkv
      obtain ⟨hstore, hcompressed⟩ := storeState_run cache platform backend m hholds
      obtain ⟨m', kv'', hrun, hstored⟩ := ih b
        (m.storeState platform backend (cache.keyFor tokens b) kv' b).2 kv' hsorted'
        (fun x hx => ⟨hfirst x hx, (hmarks x (List.mem_cons_of_mem _ hx)).2⟩) hholds
      refine ⟨m', kv'', ?_, ?_⟩
      · rw [decodeBlocks, if_neg (by omega), hdecode]
        exact hrun
      · rw [hstored, hcompressed, hstore, snapshotOps, snapshotOps, snapshotOps, DiskStore.run,
          DiskStore.run, DiskStore.run, ← List.foldl_append, ← List.map_append,
          List.singleton_append]

variable (cache platform backend tokens) in
/-- In a store without entries there is nothing to restore. -/
theorem restoreLongest_fresh :
    ∀ (marks : List ℕ) (m : CacheManager) (kv : KvState), m.store.entries = [] →
      ∃ m', cache.restoreLongest platform backend tokens marks m kv = (0, m', kv) ∧
        m'.store = m.store ∧ m'.compressed = m.compressed := by
  intro marks
  induction marks with
  | nil =>
      intro m kv _
      exact ⟨m, rfl, rfl, rfl⟩
  | cons b rest ih =>
      intro m kv hempty
      have hget : m.store.get platform.fs (cache.keyFor tokens b) = (none, m.store) := by
        rw [DiskStore.get, hempty]
        rfl
      have hload : m.loadState platform backend (cache.keyFor tokens b) kv =
          (false, CacheManager.miss m, kv) := by
        rw [CacheManager.loadState, hget]
      obtain ⟨m', hrun, hstore, hcompressed⟩ := ih (CacheManager.miss m) kv hempty
      refine ⟨m', ?_, hstore, hcompressed⟩
      rw [restoreLongest, hload]
      exact hrun

variable (cache platform backend) in
/-- A prefill from a store without entries stores a snapshot at every boundary. -/
theorem prefill_fresh (hne : tokens ≠ []) (hlength : tokens.length ≤ 2 ^ 31) {m : CacheManager}
    (hempty : m.store.entries = []) (kv : KvState) :
    ∃ m' kv', cache.prefill platform backend tokens m kv = (.ok 0, m', kv') ∧
      m'.store = m.store.run platform.fs (cache.snapshotOps platform backend m.compressed tokens
        (cache.boundaries tokens.length)) := by
  obtain ⟨m', hrestore, hstore, hcompressed⟩ := restoreLongest_fresh cache
    platform backend tokens (cache.boundaries tokens.length).reverse m kv hempty
  have hmarks : ∀ b ∈ cache.boundaries tokens.length, 0 < b ∧ b ≤ tokens.length := by
    intro b hb
    obtain ⟨hpos, hb⟩ := (cache.mem_boundaries hlength).mp hb
    omega
  obtain ⟨m'', kv'', hrun, hstored⟩ := decodeBlocks_store cache platform backend
    hlength (cache.boundaries tokens.length) 0 m' (StatefulBackend.reset kv)
    (cache.boundaries_sorted hlength) hmarks (StatefulBackend.holds_reset kv)
  refine ⟨m'', kv'', ?_, ?_⟩
  · rw [prefill, if_neg hne]
    dsimp only
    rw [hrestore]
    dsimp only
    rw [if_pos rfl, hrun]
  · rw [hstored, hstore, hcompressed]

/-! ## What a prefill looks for first -/

variable (cache platform backend tokens) in
/-- What has been restored is one of the boundaries, or nothing. -/
theorem restoreLongest_mem (marks : List ℕ) (m : CacheManager) (kv : KvState) :
    (cache.restoreLongest platform backend tokens marks m kv).1 = 0 ∨
      (cache.restoreLongest platform backend tokens marks m kv).1 ∈ marks := by
  induction marks generalizing m kv with
  | nil => exact .inl rfl
  | cons b rest ih =>
      rw [restoreLongest]
      split
      · exact .inr (List.mem_cons_self ..)
      · rename_i m' kv' _
        exact (ih m' kv').imp_right (List.mem_cons_of_mem _)

/-- Where everything has been restored nothing is decoded. -/
theorem decodeBlocks_restored {restored : ℕ} (marks : List ℕ) (hmarks : ∀ b ∈ marks, b ≤ restored)
    (pos : ℕ) (m : CacheManager) (kv : KvState) :
    cache.decodeBlocks platform backend tokens restored marks pos m kv = (.ok (), m, kv) := by
  induction marks with
  | nil => rfl
  | cons b rest ih =>
      rw [decodeBlocks, if_pos (hmarks b (List.mem_cons_self ..))]
      exact ih fun x hx => hmarks x (List.mem_cons_of_mem _ hx)

variable (cache platform backend) in
/-- The whole sequence is restored exactly if its own snapshot can be loaded, and then nothing is
decoded. -/
theorem prefill_eq_full_iff (hne : tokens ≠ []) (hlength : tokens.length ≤ 2 ^ 31)
    (m : CacheManager) (kv : KvState) :
    let loaded := m.loadState platform backend (cache.keyFor tokens tokens.length) kv
    ((cache.prefill platform backend tokens m kv).1 = .ok tokens.length ↔ loaded.1 = true) ∧
      (loaded.1 = true →
        cache.prefill platform backend tokens m kv = (.ok tokens.length, loaded.2)) := by
  have hpos : 0 < tokens.length := List.length_pos_iff.mpr hne
  have hmarks : (cache.boundaries tokens.length).reverse = tokens.length ::
      (boundariesFrom cache.block tokens.length tokens.length cache.block).reverse := by
    calc (cache.boundaries tokens.length).reverse
        = (boundariesFrom cache.block tokens.length tokens.length cache.block ++
            [tokens.length]).reverse := by
          rw [boundaries, if_pos hpos, Nat.mod_eq_of_lt (by omega)]
      _ = tokens.length ::
            (boundariesFrom cache.block tokens.length tokens.length cache.block).reverse := by
          rw [List.reverse_append, List.reverse_singleton, List.singleton_append]
  have hshorter : ∀ b ∈ boundariesFrom cache.block tokens.length tokens.length cache.block,
      b < tokens.length := by
    have hsorted := cache.boundaries_sorted hlength
    rw [boundaries, if_pos hpos, Nat.mod_eq_of_lt (by omega)] at hsorted
    exact fun b hb => (List.pairwise_append.mp hsorted).2.2 b hb _ (List.mem_singleton.mpr rfl)
  intro loaded
  have hfull : loaded.1 = true →
      cache.prefill platform backend tokens m kv = (.ok tokens.length, loaded.2) := by
    intro hloaded
    have hrestore : cache.restoreLongest platform backend tokens
        (cache.boundaries tokens.length).reverse m kv = (tokens.length, loaded.2) := by
      rw [hmarks, restoreLongest]
      rw [show m.loadState platform backend (cache.keyFor tokens tokens.length) kv =
        (true, loaded.2) from Prod.ext hloaded rfl]
    rw [prefill, if_neg hne]
    dsimp only
    rw [hrestore]
    dsimp only
    rw [if_neg hpos.ne', decodeBlocks_restored]
    intro b hb
    obtain ⟨-, hb⟩ := (cache.mem_boundaries hlength).mp hb
    omega
  refine ⟨⟨fun hresult => ?_, fun hloaded => by rw [hfull hloaded]⟩, hfull⟩
  by_contra hmissed
  rw [Bool.not_eq_true] at hmissed
  -- After a miss only shorter snapshots are looked for.
  have hrestored : (cache.restoreLongest platform backend tokens
      (cache.boundaries tokens.length).reverse m kv).1 < tokens.length := by
    rw [hmarks, restoreLongest]
    rw [show m.loadState platform backend (cache.keyFor tokens tokens.length) kv =
      (false, loaded.2) from Prod.ext hmissed rfl]
    rcases restoreLongest_mem cache platform backend
      tokens (boundariesFrom cache.block tokens.length tokens.length
        cache.block).reverse loaded.2.1 loaded.2.2 with hnone | hmem
    · rw [hnone]
      exact hpos
    · exact hshorter _ (List.mem_reverse.mp hmem)
  rw [prefill, if_neg hne] at hresult
  dsimp only at hresult
  split at hresult
  · cases hresult
  · exact hrestored.ne (Except.ok.inj hresult)

/-! ## After a prefill into an empty directory -/

section Snapshots

variable (cache platform backend tokens) in
/-- An empty directory into which the snapshots at some boundaries have been put. -/
def snapshotStore (accesses : ℕ) (compressed : Bool) (marks : List ℕ) : DiskStore :=
  (DiskStore.reopen platform.fs 0 ⟨[], accesses⟩).run platform.fs
    (cache.snapshotOps platform backend compressed tokens marks)

variable (hlength : tokens.length ≤ 2 ^ 31) (accesses : ℕ) (compressed : Bool)

theorem snapshotStore_append (before after : List ℕ) :
    cache.snapshotStore platform backend tokens accesses compressed (before ++ after) =
      (cache.snapshotStore platform backend tokens accesses compressed before).run platform.fs
        (cache.snapshotOps platform backend compressed tokens after) := by
  rw [snapshotStore, snapshotOps, List.map_append, DiskStore.run, List.foldl_append]
  rfl

theorem snapshotStore_unlimited (marks : List ℕ) :
    (cache.snapshotStore platform backend tokens accesses compressed marks).maxBytes = 0 := by
  refine DiskStore.unlimited_run rfl fun maxBytes hmem => ?_
  obtain ⟨b, -, heq⟩ := List.mem_map.mp hmem
  cases heq

include hlength

theorem length_keyFor_lt (n : ℕ) : (cache.keyFor tokens n).length < 2 ^ 32 :=
  length_keyOf_lt _ (by rw [List.length_take]; omega)

/-- What the store holds are the snapshots. -/
theorem snapshotStore_sound (hnoticed : ∀ access, platform.fs.Notices access) (marks : List ℕ) :
    (cache.snapshotStore platform backend tokens accesses compressed marks).Sound fun key data =>
      .put key data ∈ cache.snapshotOps platform backend compressed tokens marks := by
  have hempty : ∀ good : Bytes → Bytes → Prop, (⟨[], accesses⟩ : Disk).Sound good :=
    fun _ => ⟨List.nodup_nil, nofun⟩
  refine DiskStore.sound_run hnoticed (DiskStore.sound_reopen platform.fs 0 (hempty _))
    fun key data hmem => ⟨?_, hmem⟩
  obtain ⟨b, -, heq⟩ := List.mem_map.mp hmem
  cases heq
  exact length_keyFor_lt hlength b

variable (htwo : 2 ≤ tokens.length)
include htwo

/-- The keys of the whole list and of the list without its last token differ. -/
theorem keyFor_whole_ne : cache.keyFor tokens tokens.length ≠
    cache.keyFor tokens (tokens.length - 1) := by
  intro heq
  have hcount := count_of_hashedKey heq
  rw [List.length_take, List.length_take] at hcount
  omega

/-- A snapshot of the list without its last token is stored only if the block size divides its
length. -/
theorem dvd_of_put {data : Bytes}
    (hput : .put (cache.keyFor tokens (tokens.length - 1)) data ∈ cache.snapshotOps platform backend
      compressed tokens (cache.boundaries tokens.length)) : cache.block ∣ tokens.length - 1 := by
  obtain ⟨b, hb, heq⟩ := List.mem_map.mp hput
  obtain ⟨hkey, -⟩ := StoreOp.put.inj heq
  have hcount := count_of_hashedKey hkey
  rw [List.length_take, List.length_take] at hcount
  obtain ⟨-, rfl | ⟨-, hdvd⟩⟩ := (cache.mem_boundaries hlength).mp hb
  · omega
  · obtain rfl : b = tokens.length - 1 := by omega
    exact hdvd

variable (hwrite : ∀ access, platform.fs.writeFails access = false)
include hwrite

variable (cache backend) in
/-- The last snapshot is that of the whole list. -/
theorem snapshotStore_whole :
    ∃ data, (cache.snapshotStore platform backend tokens accesses compressed
      (cache.boundaries tokens.length)).InStore (cache.keyFor tokens tokens.length) data := by
  have hmarks : cache.boundaries tokens.length =
      boundariesFrom cache.block tokens.length tokens.length cache.block ++ [tokens.length] := by
    rw [boundaries, if_pos (by omega), Nat.mod_eq_of_lt (by omega)]
  have hnoticed := fun access => FileSystem.notices_of_succeeds (hwrite access)
  rw [hmarks, snapshotStore_append]
  exact ⟨_, DiskStore.inStore_of_put
    (snapshotStore_sound hlength accesses compressed hnoticed _).named (length_keyFor_lt hlength _)
    (DiskStore.put_ok hwrite fun hlarge => hlarge.1 (snapshotStore_unlimited accesses compressed _))
    (FileSystem.left_of_succeeds (hwrite _))⟩

/-- The snapshot of the list without its last token stays, unless the last one takes its file. -/
theorem snapshotStore_inStore (hdvd : cache.block ∣ tokens.length - 1)
    (hpath : pathFor (cache.keyFor tokens tokens.length) ≠
      pathFor (cache.keyFor tokens (tokens.length - 1))) :
    (cache.snapshotStore platform backend tokens accesses compressed
      (cache.boundaries tokens.length)).InStore (cache.keyFor tokens (tokens.length - 1))
        (envelope (pack platform.zstd compressed
          (backend.stateData (tokens.take (tokens.length - 1)).zipIdx)) (tokens.length - 1)) := by
  let key := cache.keyFor tokens (tokens.length - 1)
  let whole := cache.keyFor tokens tokens.length
  have hmem : tokens.length - 1 ∈ cache.boundaries tokens.length :=
    (cache.mem_boundaries hlength).mpr ⟨by omega, .inr ⟨by omega, hdvd⟩⟩
  obtain ⟨before, after, hsplit⟩ := List.append_of_mem hmem
  have hsorted := cache.boundaries_sorted hlength
  rw [hsplit] at hsorted
  have hafter : ∀ b ∈ after, b = tokens.length := by
    intro b hb
    have hlt := (List.pairwise_cons.mp (List.pairwise_append.mp hsorted).2.1).1 b hb
    have hb' : b ∈ cache.boundaries tokens.length := by
      rw [hsplit]
      exact List.mem_append_right _ (List.mem_cons_of_mem _ hb)
    have hrange := (cache.mem_boundaries hlength).mp hb'
    omega
  have helse : DiskStore.Elsewhere {whole} key := by
    rintro _ rfl
    exact ⟨keyFor_whole_ne hlength htwo, hpath⟩
  have hnoticed := fun access => FileSystem.notices_of_succeeds (hwrite access)
  let first := cache.snapshotStore platform backend tokens accesses compressed before
  have hunlimited : first.maxBytes = 0 := snapshotStore_unlimited accesses compressed before
  have hpaths : ∀ other ∈ ({whole} : Set Bytes), ∀ e, first.entries.lookup other = some e →
      e.path ≠ pathFor key := by
    rintro _ rfl e he
    rw [((snapshotStore_sound hlength accesses compressed hnoticed before).entries _
      (mem_of_lookup he)).2.1]
    exact hpath
  -- The snapshot is put, and all that is put after it are snapshots of the whole list.
  let snapshot := envelope (pack platform.zstd compressed
    (backend.stateData (tokens.take (tokens.length - 1)).zipIdx)) (tokens.length - 1)
  have hwritten : (first.put platform.fs key snapshot).1 = true :=
    DiskStore.put_ok hwrite fun hlarge => hlarge.1 hunlimited
  have hput := DiskStore.undisturbed_of_put (fun other hother => (helse other hother).1) hunlimited
    hpaths hwritten (FileSystem.left_of_succeeds (hwrite _))
  have hlater : ∀ op ∈ cache.snapshotOps platform backend compressed tokens after,
      DiskStore.OnKeys {whole} op := by
    intro op hop
    obtain ⟨b, hb, rfl⟩ := List.mem_map.mp hop
    rw [hafter b hb]
    exact rfl
  have hrun := DiskStore.undisturbed_run platform.fs helse hput hlater
  have hsound : (cache.snapshotStore platform backend tokens accesses compressed
      (cache.boundaries tokens.length)).Sound fun _ _ => True :=
    (snapshotStore_sound hlength accesses compressed hnoticed
      (cache.boundaries tokens.length)).weaken
  rw [hsplit, snapshotStore_append] at hsound ⊢
  exact hrun.inStore hsound

/-- What the request finds under the key of the list without its last token. -/
theorem get_snapshotStore {after : DiskStore} {fs : FileSystem}
    (hafter : (cache.snapshotStore platform backend tokens accesses compressed
      (cache.boundaries tokens.length)).ContinuedBy after fs) :
    (after.get fs (cache.keyFor tokens (tokens.length - 1))).1 =
      if cache.block ∣ tokens.length - 1 ∧ pathFor (cache.keyFor tokens tokens.length) ≠
          pathFor (cache.keyFor tokens (tokens.length - 1)) then
        some (envelope (pack platform.zstd compressed
          (backend.stateData (tokens.take (tokens.length - 1)).zipIdx)) (tokens.length - 1))
      else none := by
  have hnoticed := fun access => FileSystem.notices_of_succeeds (hwrite access)
  have hsound := hafter.sound (snapshotStore_sound hlength accesses compressed hnoticed _)
  have hshort : ∀ n, (cache.keyFor tokens n).length ≤ 4096 := by
    intro n
    exact (length_madeKey ⟨cache.modelTag, tokens, by omega, .inr ⟨cache, n, rfl, rfl⟩⟩).trans
      (by norm_num)
  by_cases hdvd : cache.block ∣ tokens.length - 1
  · by_cases hpath : pathFor (cache.keyFor tokens tokens.length) =
        pathFor (cache.keyFor tokens (tokens.length - 1))
    · -- The file holds the snapshot that was put last.
      rw [if_neg fun hboth => hboth.2 hpath]
      obtain ⟨data, hwhole⟩ := snapshotStore_whole cache backend hlength
        accesses compressed htwo hwrite
      obtain ⟨mtime, hfile⟩ := hwhole.file
      rw [hpath, ← hafter.files] at hfile
      exact DiskStore.get_of_foreign_file
        (fun e he => (hsound.entries _ (mem_of_lookup he)).2.1) (length_keyFor_lt hlength _)
        (keyFor_whole_ne hlength htwo) hfile
    · rw [if_pos ⟨hdvd, hpath⟩]
      exact (hafter.inStore (snapshotStore_inStore hlength accesses compressed htwo hwrite hdvd hpath)
        (hshort _)).get hafter.1 (length_keyFor_lt hlength _)
  · -- It was never put.
    rw [if_neg fun hboth => hdvd hboth.1]
    cases hget : (after.get fs (cache.keyFor tokens (tokens.length - 1))).1 with
    | none => rfl
    | some payload =>
        exact absurd (dvd_of_put hlength compressed htwo ((hsound.get fs _).2 payload hget)) hdvd

end Snapshots

end PrefixCache

end Reame.Cache

namespace Reame.Engine

open Reame.Core Reame.Cache

variable {K : Type*}

/-! ## Warming and the request after it -/

/-- `ReameEngine::warm`. -/
def warm (backend : StatefulBackend K) (memory : ClassicMemory) (prompt : Bytes) :
    Except Fault ℤ × ClassicMemory :=
  let tokens := backend.tokenize prompt true
  match checkPrompt backend.contextLength tokens with
  | some fault => (.error fault, memory)
  | none =>
      match memory.cache with
      | none => (.ok tokens.length, memory)
      | some c =>
          match c.cache.prefill c.platform backend tokens c.manager memory.kv with
          | (.error fault, manager, kv) =>
              (.error fault, { memory with kv, cache := some { c with manager } })
          | (.ok _, manager, kv) =>
              (.ok tokens.length, { memory with kv, cache := some { c with manager } })

/-- With a cache, a prompt that passes the checks is prefilled. -/
theorem warm_cached {backend : StatefulBackend K} {memory : ClassicMemory} {c : OpenCache}
    (hcache : memory.cache = some c) {prompt : Bytes}
    (hcheck : checkPrompt backend.contextLength (backend.tokenize prompt true) = none)
    {restored : ℕ} {manager : CacheManager} {kv : KvState}
    (hprefill : c.cache.prefill c.platform backend (backend.tokenize prompt true) c.manager
      memory.kv = (.ok restored, manager, kv)) :
    warm backend memory prompt = (.ok (backend.tokenize prompt true).length,
      { memory with kv, cache := some { c with manager } }) := by
  unfold warm
  dsimp only
  rw [hcheck]
  dsimp only
  rw [hcache]
  dsimp only
  rw [hprefill]

/-- The prefill of a request restores its prompt without the last token, and decodes nothing: the
backend is as `set_state` leaves it. -/
def FullHit (backend : StatefulBackend K) (c : OpenCache) (kv : KvState) (tokens : List TokenId) :
    Prop :=
  ∃ manager, c.cache.prefill c.platform backend tokens.dropLast c.manager kv =
    (.ok (tokens.length - 1), manager,
      (backend.setState kv (backend.stateData tokens.dropLast.zipIdx) (tokens.length - 1)).2)

/-- The same open cache, or one that a later process with the model opens on the directory. -/
def Successor (c later : OpenCache) : Prop :=
  later = c ∨ ∃ process : Process, later = process.launch c.manager.store.disk ∧
    process.cache.modelTag = c.cache.modelTag ∧ process.platform.zstd = c.platform.zstd ∧
    ∀ access, process.platform.fs.readFails access = false

theorem setState_ok {backend : StatefulBackend K} (hrestores : ∀ i, backend.restoreFails i = false)
    (kv : KvState) (cells : List Cell) (nPast : ℕ) :
    (backend.setState kv (backend.stateData cells) nPast).1 = .ok () := by
  unfold StatefulBackend.setState
  dsimp only
  rw [hrestores, if_neg Bool.false_ne_true, backend.parseState_stateData]

/-- On an empty directory without a budget: the request after `warm` is a full hit exactly if the
block size divides the length of its prompt without the last token, and the snapshots of that and
of the whole prompt have different files. -/
theorem warm_full_hit_iff (backend : StatefulBackend K)
    (hrestores : ∀ i, backend.restoreFails i = false) (process : Process)
    (hread : ∀ access, process.platform.fs.readFails access = false)
    (hwrite : ∀ access, process.platform.fs.writeFails access = false)
    (hunlimited : process.maxBytes = 0) (prompt : Bytes)
    (htwo : 2 ≤ (backend.tokenize prompt true).length)
    (hfits : (backend.tokenize prompt true).length ≤ backend.contextLength) (accesses : ℕ)
    (kv : KvState) (context : List TokenId) :
    let tokens := backend.tokenize prompt true
    ∃ memory c, warm backend ⟨kv, some (process.launch ⟨[], accesses⟩), context⟩ prompt =
        (.ok tokens.length, memory) ∧ memory.cache = some c ∧
      ∀ later, Successor c later → ∀ kv', FullHit backend later kv' tokens ↔
        process.cache.block ∣ tokens.length - 1 ∧
          pathFor (keyOf process.cache.modelTag tokens) ≠
            pathFor (keyOf process.cache.modelTag tokens.dropLast) := by
  intro tokens
  let opened := process.launch ⟨[], accesses⟩
  have hlength : tokens.length ≤ 2 ^ 31 := hfits.trans backend.contextLength_le
  have htwo' : 2 ≤ tokens.length := htwo
  have hlast : tokens.dropLast.length = tokens.length - 1 := List.length_dropLast
  have hne : tokens ≠ [] := List.length_pos_iff.mp (by omega)
  have hne' : tokens.dropLast ≠ [] := List.length_pos_iff.mp (by omega)
  have hempty : opened.manager.store.entries = [] := by
    show (DiskStore.reopen _ _ _).entries = []
    simp [DiskStore.reopen]
  obtain ⟨manager, after, hprefill, hstore⟩ := PrefixCache.prefill_fresh process.cache
    process.platform backend hne hlength hempty kv
  have hcheck : checkPrompt backend.contextLength tokens = none := by
    rw [checkPrompt, if_neg hne, if_neg (not_lt.mpr hfits)]
  refine ⟨_, { opened with manager }, warm_cached (c := opened) rfl hcheck hprefill, rfl, ?_⟩
  intro later hlater kv'
  have hstored : manager.store = process.cache.snapshotStore process.platform backend tokens
      accesses process.compressed (process.cache.boundaries tokens.length) := by
    rw [hstore, PrefixCache.snapshotStore, ← hunlimited]
    rfl
  have htag : later.cache.modelTag = process.cache.modelTag ∧
      later.platform.zstd = process.platform.zstd := by
    rcases hlater with rfl | ⟨process', rfl, htag, hzstd, -⟩
    · exact ⟨rfl, rfl⟩
    · exact ⟨htag, hzstd⟩
  have hcontinued : manager.store.ContinuedBy later.manager.store later.platform.fs := by
    rcases hlater with rfl | ⟨process', rfl, -, -, hread'⟩
    · exact ⟨hread, .inl rfl⟩
    · exact ⟨hread', .inr ⟨process'.maxBytes, rfl⟩⟩
  rw [hstored] at hcontinued
  have hget := PrefixCache.get_snapshotStore hlength accesses process.compressed htwo hwrite
    hcontinued
  have hdrop : tokens.take (tokens.length - 1) = tokens.dropLast := List.dropLast_eq_take.symm
  have hkey : later.cache.keyFor tokens.dropLast tokens.dropLast.length =
      process.cache.keyFor tokens (tokens.length - 1) := by
    rw [PrefixCache.keyFor, PrefixCache.keyFor, List.take_length, hdrop, htag.1]
  have hwhole : process.cache.keyFor tokens tokens.length =
      keyOf process.cache.modelTag tokens := by
    rw [PrefixCache.keyFor, List.take_length]
  rw [hwhole, PrefixCache.keyFor, hdrop] at hget
  -- The request first loads the snapshot of its own list.
  obtain ⟨hfull, hresult⟩ := PrefixCache.prefill_eq_full_iff later.cache
    later.platform backend hne' (by omega) later.manager kv'
  rw [hkey, PrefixCache.keyFor, hdrop, hlast] at hfull hresult
  obtain ⟨hmissed, hhanded⟩ := CacheManager.loadState_handed later.platform backend later.manager
    (keyOf process.cache.modelTag tokens.dropLast) kv'
  constructor
  · rintro ⟨manager', hhit⟩
    have hloaded := hfull.mp (by rw [hhit])
    by_contra hnot
    rw [if_neg hnot] at hget
    have hnone := (hmissed (by rw [CacheManager.handed, hget]; rfl)).1
    rw [hloaded] at hnone
    cases hnone
  · intro hboth
    rw [if_pos hboth, ← htag.2] at hget
    have hgiven := CacheManager.handed_of_envelope (by omega) hget
    obtain ⟨hok, hkv⟩ := hhanded _ _ hgiven
    have hloaded := hok.mpr (setState_ok hrestores _ _ _)
    refine ⟨_, (hresult hloaded).trans (Prod.ext rfl (Prod.ext rfl hkv))⟩

/-! ## Two block sizes -/

/-- A model that takes every prompt for the same two tokens. -/
def pairBackend : StatefulBackend ℚ :=
  { blobBackend with
    tokenize := fun _ _ => [0, 0]
    vocabSize_pos := blobBackend_vocabSize_pos
    length_logits := blobBackend_length_logits }

/-- With blocks of one token a later process has a full hit. -/
theorem warm_full_hit_one :
    let process := exampleProcess 1 (by decide)
    ∃ memory c, warm pairBackend ⟨⟨[], 0, 0⟩, some (process.launch ⟨[], 0⟩), []⟩ [] =
        (.ok 2, memory) ∧ memory.cache = some c ∧
      FullHit pairBackend (process.launch c.manager.store.disk) ⟨[], 0, 0⟩ [0, 0] := by
  intro process
  obtain ⟨memory, c, hwarm, hcache, hlater⟩ := warm_full_hit_iff pairBackend (fun _ => rfl) process
    (fun _ => rfl) (fun _ => rfl) rfl [] (by decide) (by decide) 0 ⟨[], 0, 0⟩ []
  refine ⟨memory, c, hwarm, hcache, ?_⟩
  have hconfig : c.cache = process.cache ∧ c.platform = process.platform := by
    unfold warm at hwarm
    dsimp only at hwarm
    split at hwarm
    · cases hwarm
    · split at hwarm
      · cases hwarm
      · rename_i hprefill
        cases hwarm
        cases hcache
        exact ⟨rfl, rfl⟩
  refine (hlater _ (.inr ⟨process, rfl, ?_, ?_, fun _ => rfl⟩) ⟨[], 0, 0⟩).mpr ?_
  · rw [hconfig.1]
  · rw [hconfig.2]
  · decide +kernel

/-- With blocks of two tokens there is a snapshot of both tokens and none of the first, and the
request decodes it again. -/
theorem warm_misses_boundary :
    let process := exampleProcess 2 (by decide)
    let memory := (warm pairBackend ⟨⟨[], 0, 0⟩, some (process.launch ⟨[], 0⟩), []⟩ []).2
    (warm pairBackend ⟨⟨[], 0, 0⟩, some (process.launch ⟨[], 0⟩), []⟩ []).1 = .ok 2 ∧
      ∃ c, memory.cache = some c ∧
        (c.cache.prefill c.platform pairBackend [0] c.manager memory.kv).1 = .ok 0 ∧
        ¬ FullHit pairBackend c memory.kv [0, 0] := by
  intro process memory
  have hmissed : memory.cache.map (fun c =>
      (c.cache.prefill c.platform pairBackend [0] c.manager memory.kv).1) = some (.ok 0) := by
    decide +kernel
  obtain ⟨c, hcache, hprefill⟩ := Option.map_eq_some_iff.mp hmissed
  refine ⟨by decide +kernel, c, hcache, hprefill, ?_⟩
  rintro ⟨manager, hhit⟩
  have hfirst := congrArg Prod.fst hhit
  rw [show [0, 0].dropLast = ([0] : List TokenId) from rfl, hprefill] at hfirst
  cases hfirst

end Reame.Engine
