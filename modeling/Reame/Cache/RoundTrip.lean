import Reame.Cache.Corruption
import Reame.Cache.PrefixCache
import Reame.Cache.StoreLedger

/-!
# The round trip of a snapshot

A blob is packed behind a flag, put into an envelope with its checksum and `n_past`, and
written to a file behind its key.  Each of the three formats is inverse to its reading
whatever the bytes are, but for the lengths that a header has to hold:

* the file says the length of the key in 32 bits, and a directory that is opened again
  passes over keys of more than 4096 bytes.  Keys of `make_key` and `key_for` are short
  (`length_madeKey`);
* the envelope says `n_past` in 32 bits, which is its type.

So once all of the file is on the disk (`WritesWhole`: `put` does not see what is lost when it
closes the stream), and as long as the entry is neither removed, evicted nor overwritten
(`Keeps`), a load hands `set_state` the blob and the `n_past` that were stored
(`envelope_roundtrip`), in the same process or in a later one.
-/

namespace Reame.Cache

/-! ## Keys -/

/-- A key that `make_key` or `key_for` gives to a token sequence. -/
def MadeKey (key : Bytes) : Prop :=
  ∃ (modelTag : Bytes) (tokens : List TokenId), tokens.length < 2 ^ 64 ∧
    (key = makeKey modelTag tokens ∨
      ∃ (cache : PrefixCache) (n : ℕ), cache.modelTag = modelTag ∧ key = cache.keyFor tokens n)

/-- Two hashes and a count, in decimal. -/
theorem length_hashedKey (kind modelTag : Bytes) {tokens : List TokenId}
    (hlength : tokens.length < 2 ^ 64) :
    (hashedKey kind modelTag tokens).length ≤ kind.length + 63 := by
  have hhash : ∀ hash : UInt64, (Wire.decimal hash.toNat).length ≤ 20 :=
    fun hash => length_decimal_le (hash.toNat_lt.trans (by norm_num))
  have hfirst := hhash (checksum (keyMaterial modelTag tokens))
  have hsecond := hhash (checksum (keyMaterial modelTag tokens ++ ascii "x"))
  have hcount : (Wire.decimal tokens.length).length ≤ 20 :=
    length_decimal_le (hlength.trans (by norm_num))
  have htexts : (ascii "-").length = 1 ∧ (ascii "-n").length = 2 := ⟨rfl, rfl⟩
  simp only [hashedKey, List.length_append]
  omega

theorem length_madeKey {key : Bytes} (hkey : MadeKey key) : key.length ≤ 67 := by
  obtain ⟨modelTag, tokens, hlength, rfl | ⟨cache, n, -, rfl⟩⟩ := hkey
  · have hkind : (ascii "kv-").length = 3 := rfl
    exact (length_hashedKey _ _ hlength).trans (by omega)
  · have hkind : (ascii "pfx-").length = 4 := rfl
    have htaken : (tokens.take n).length < 2 ^ 64 := by
      rw [List.length_take]
      omega
    exact (length_hashedKey _ _ htaken).trans (by omega)

/-! ## An entry that stays -/

namespace DiskStore

variable (fs : FileSystem)

/-- After the operation the entry of a key is where it was, in the index and in its file: it was
neither removed nor evicted nor overwritten.  A new owner of the directory has an index of its own
to make. -/
def Keeps (key : Bytes) (s : DiskStore) (op : StoreOp) : Prop :=
  match op with
  | .reopen _ => True
  | .put other _ => other.length < 2 ^ 32 ∧ (other = key → fs.Notices s.disk.accesses) ∧
      (s.apply fs op).contains key = true ∧
      (s.apply fs op).disk.files.lookup (pathFor key) = s.disk.files.lookup (pathFor key)
  | .get _ | .contains _ | .remove _ | .clear => (s.apply fs op).contains key = true ∧
      (s.apply fs op).disk.files.lookup (pathFor key) = s.disk.files.lookup (pathFor key)

instance (key : Bytes) (s : DiskStore) (op : StoreOp) : Decidable (s.Keeps fs key op) :=
  match op with
  | .reopen _ => inferInstanceAs (Decidable True)
  | .put _ _ => inferInstanceAs (Decidable (_ ∧ _ ∧ _ ∧ _))
  | .get _ | .contains _ | .remove _ | .clear => inferInstanceAs (Decidable (_ ∧ _))

/-- The entry of a key is there, with these data in its file. -/
structure InStore (key data : Bytes) (s : DiskStore) : Prop where
  named : s.disk.Named
  shows : s.Shows key (encodeFile key data)
  indexed : s.contains key = true
  file : ∃ mtime, s.disk.files.lookup (pathFor key) = some ⟨encodeFile key data, mtime⟩

variable {fs} {s : DiskStore} {key data : Bytes}

theorem shows_of_whole (hs : s.disk.Named) (hput : (s.put fs key data).1 = true)
    (hwhole : s.WritesWhole fs key data) :
    Shows key (encodeFile key data) (s.put fs key data).2 := by
  rw [put_of_whole hput hwhole]
  refine ⟨fun item hitem => ?_, fun e he => ?_⟩
  · rcases List.mem_cons.mp hitem with rfl | hold
    · exact .inl ⟨rfl, rfl⟩
    · obtain ⟨hmem, hname⟩ := List.mem_filter.mp hold
      have hne : item.1 ≠ pathFor key := by simpa using hname
      exact .inr fun hstored =>
        hne (hs.keys _ ((shrunk_cleared s key _).files.subset hmem) key hstored)
  · rcases List.mem_cons.mp he with heq | hold
    · obtain ⟨-, rfl⟩ := Prod.mk.inj heq
      exact ⟨rfl, (length_encodeFile key data).symm⟩
    · simp at hold

/-- What `put` has stored. -/
theorem inStore_of_put (hs : s.disk.Named) (hkey : key.length < 2 ^ 32)
    (hput : (s.put fs key data).1 = true) (hwhole : s.WritesWhole fs key data) :
    InStore key data (s.put fs key data).2 := by
  obtain ⟨⟨recency, hentry⟩, hfile⟩ := lookups_of_whole hput hwhole
  refine ⟨labelled_put fs hs hkey fun _ _ => trivial, shows_of_whole hs hput hwhole, ?_, _, hfile⟩
  rw [contains, hentry]
  rfl

/-- Putting the same data again. -/
theorem InStore.put_self (hs : InStore key data s) (hkey : key.length < 2 ^ 32) {data' : Bytes}
    (hnoticed : fs.Notices s.disk.accesses) (hindexed : (s.put fs key data').2.contains key = true)
    (hfile : (s.put fs key data').2.disk.files.lookup (pathFor key) =
      s.disk.files.lookup (pathFor key)) :
    Shows key (encodeFile key data) (s.put fs key data').2 := by
  obtain ⟨mtime, hbefore⟩ := hs.file
  rcases put_cases_noticed hnoticed key data' with ⟨-, hput⟩ | ⟨-, -, hput⟩ | ⟨-, hwrite, hput⟩
  · rw [hput]
    exact hs.shows
  · -- A `put` that fails has dropped the entry before.
    rw [hput, contains_iff] at hindexed
    obtain ⟨item, hitem, heq⟩ := List.mem_map.mp hindexed
    exact absurd heq (cleared_new s key _ item hitem)
  · have hstored : (s.put fs key data').1 = true := by rw [hput]
    have hwhole : s.WritesWhole fs key data' := FileSystem.left_of_succeeds hwrite
    rw [(lookups_of_whole hstored hwhole).2, hbefore, Option.some.injEq, File.mk.injEq] at hfile
    obtain ⟨-, rfl⟩ := encodeFile_inj hkey hkey hfile.1
    exact shows_of_whole hs.named hstored hwhole

/-- One operation that keeps the entry. -/
theorem InStore.apply (hs : InStore key data s) (hread : ∀ access, fs.readFails access = false)
    (hshort : key.length ≤ 4096) {op : StoreOp} (hop : s.Keeps fs key op) :
    InStore key data (s.apply fs op) := by
  have hremove : ∀ (s : DiskStore) (other : Bytes), s.disk.Named ∧ Shows key (encodeFile key data) s →
      (s.remove other).2.disk.Named ∧ Shows key (encodeFile key data) (s.remove other).2 :=
    fun s other hs => ⟨hs.1.sublist (shrunk_remove s other).files,
      hs.2.shrunk (shrunk_remove s other)⟩
  obtain ⟨mtime, hfile⟩ := hs.file
  cases op with
  | reopen maxBytes =>
      -- The new index has the key because its file is still there.
      exact ⟨hs.named.sublist (List.Sublist.refl _), hs.shows.reopen maxBytes,
        contains_reopen hs.named maxBytes (fun _ _ => hread _) (mem_of_lookup hfile) rfl hshort,
        mtime, hfile⟩
  | put other data' =>
      obtain ⟨hother, hnoticed, hindexed, hsame⟩ := hop
      refine ⟨labelled_put fs hs.named hother fun _ _ => trivial, ?_, hindexed, mtime,
        hsame.trans hfile⟩
      by_cases heq : other = key
      · subst heq
        exact hs.put_self hother (hnoticed rfl) hindexed hsame
      · exact hs.shows.put heq hother data'
  | get other =>
      exact ⟨hs.named.sublist (files_get fs s other), hs.shows.get other, hop.1, mtime,
        hop.2.trans hfile⟩
  | contains other => exact hs
  | remove other =>
      obtain ⟨hnamed, hshows⟩ := hremove s other ⟨hs.named, hs.shows⟩
      exact ⟨hnamed, hshows, hop.1, mtime, hop.2.trans hfile⟩
  | clear =>
      obtain ⟨hnamed, hshows⟩ := clear_induction hremove ⟨hs.named, hs.shows⟩
      exact ⟨hnamed, hshows, hop.1, mtime, hop.2.trans hfile⟩

theorem inStore_run (hs : InStore key data s) (hread : ∀ access, fs.readFails access = false)
    (hshort : key.length ≤ 4096) {ops : List StoreOp} (hops : Throughout fs (Keeps fs key) s ops) :
    InStore key data (s.run fs ops) :=
  run_induction (fun _ _ hs hop => hs.apply hread hshort hop) hs hops

/-- The entry is read back: the index states the size of the file. -/
theorem InStore.get (hs : InStore key data s) (hread : ∀ access, fs.readFails access = false)
    (hkey : key.length < 2 ^ 32) : (s.get fs key).1 = some data := by
  obtain ⟨e, hlookup⟩ := Option.isSome_iff_exists.mp hs.indexed
  obtain ⟨mtime, hfile⟩ := hs.file
  obtain ⟨hpath, hsize⟩ := hs.shows.entries e (mem_of_lookup hlookup)
  rw [length_encodeFile] at hsize
  exact get_of_file hlookup (hread _) (hpath ▸ hfile) hsize hkey

end DiskStore

/-! ## The round trip -/

namespace CacheManager

variable {K K' : Type*}

/-- What `load_state` hands on, when the store has an envelope under the key. -/
theorem handed_of_envelope {platform : Platform} {m : CacheManager} {key blob : Bytes}
    {compressed : Bool} {nPast : ℕ} (hpast : nPast < 2 ^ 32)
    (hget : (m.store.get platform.fs key).1 =
      some (envelope (pack platform.zstd compressed blob) nPast)) :
    m.handed platform key = some (blob, nPast) := by
  rw [handed, hget, Option.bind_some, openEnvelope_envelope _ hpast, Option.bind_some]
  simp only [decompress_pack_self]

/-- An entry that was stored, with all of it on the disk, and not removed, evicted or overwritten
since is loaded: `set_state` is called with the blob and the `n_past` that were stored, and the
load succeeds if it does. -/
theorem envelope_roundtrip (platform : Platform)
    (hread : ∀ access, platform.fs.readFails access = false) (backend : StatefulBackend K)
    (maxBytes : ℕ) (compressed : Bool) (before : List StoreOp)
    (hbefore : ∀ other data, .put other data ∈ before → other.length < 2 ^ 32) {key : Bytes}
    (hkey : MadeKey key) (kv : KvState) {nPast : ℕ} (hpast : nPast < 2 ^ 32) :
    let m : CacheManager :=
      { store := (DiskStore.reopen platform.fs maxBytes {}).run platform.fs before, compressed }
    let blob := backend.stateData kv.cells
    let entry := envelope (pack platform.zstd compressed blob) nPast
    let stored := m.storeState platform backend key kv nPast
    stored.1 = true → m.store.WritesWhole platform.fs key entry → ∀ between,
      DiskStore.Throughout platform.fs (DiskStore.Keeps platform.fs key) stored.2.store between →
      ∀ (compressed' : Bool) (stats : CacheStats) (backend' : StatefulBackend K') (kv' : KvState),
        let reader : CacheManager :=
          { store := stored.2.store.run platform.fs between, compressed := compressed', stats }
        reader.handed platform key = some (blob, nPast) ∧
          ((reader.loadState platform backend' key kv').1 = true ↔
            (backend'.setState kv' blob nPast).1 = .ok ()) ∧
          (reader.loadState platform backend' key kv').2.2 =
            (backend'.setState kv' blob nPast).2 := by
  intro m blob entry stored hstored hwhole between hbetween compressed' stats backend' kv' reader
  have hshort : key.length ≤ 4096 := (length_madeKey hkey).trans (by norm_num)
  have hnamed : m.store.disk.Named :=
    DiskStore.named_run (DiskStore.labelled_reopen_empty ..) hbefore
  obtain ⟨hput, hstore⟩ := storeState_put platform backend m key kv nPast
  have hin : stored.2.store.InStore key entry := by
    rw [hstore]
    exact DiskStore.inStore_of_put hnamed (by omega) (hput.symm.trans hstored) hwhole
  have hget := (DiskStore.inStore_run hin hread hshort hbetween).get hread (by omega)
  have hhanded : reader.handed platform key = some (blob, nPast) := handed_of_envelope hpast hget
  exact ⟨hhanded, (loadState_handed platform backend' reader key kv').2 blob nPast hhanded⟩

/-- A snapshot of one cell, whose blob is 43 bytes of ones, read by the next owner of the directory;
another entry has been stored and the snapshot read in between. -/
theorem envelope_roundtrip_restart :
    let platform : Platform := ⟨.faultless, none⟩
    let key := makeKey (ascii "m") [3, -1]
    let kv : KvState := ⟨[(1, 0)], 1, 0⟩
    let m : CacheManager :=
      { store := (DiskStore.reopen .faultless 0 {}).run .faultless [.put (ascii "a") [255]]
        compressed := true }
    let stored := m.storeState platform tallyBackend key kv 4294967290
    let reader : CacheManager :=
      { store := stored.2.store.run .faultless [.put (ascii "b") [128], .get key, .reopen 0]
        compressed := false }
    reader.handed platform key = some (List.replicate 43 255, 4294967290) :=
  (@envelope_roundtrip _ ℚ ⟨.faultless, none⟩ (fun _ => rfl) tallyBackend 0 true
    [.put (ascii "a") [255]] (by simp [ascii]) (makeKey (ascii "m") [3, -1])
    ⟨ascii "m", [3, -1], by decide, .inl rfl⟩ ⟨[(1, 0)], 1, 0⟩ 4294967290 (by decide)
    (by decide +kernel) (by decide +kernel)
    [.put (ascii "b") [128], .get (makeKey (ascii "m") [3, -1]), .reopen 0] (by decide +kernel)
    false {} tallyBackend ⟨[], 0, 0⟩).1

end CacheManager

end Reame.Cache
