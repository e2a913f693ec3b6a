import Reame.Cache.DiskStore

/-!
# What the disk store holds

Whatever is put, got, removed, evicted or reopened, and whichever accesses fail, a file
that says a key has the name of that key (`Disk.Named`).  As long as no write fails
unnoticed, it holds the data of a `put` under the key in its header, and `get` returns only
such data (`Sound.put`, `Sound.get`, `sound_reopen`).  Two keys whose file names collide
take each other's place in the directory; the header keeps them apart.
-/

namespace Reame.Cache

/-! ## Files -/

theorem take_encodeFile (key data : Bytes) :
    (encodeFile key data).take 4 = LittleEndian.bytes 4 key.length := by
  rw [encodeFile, List.append_assoc, List.take_left' (LittleEndian.length_bytes ..)]

theorem drop_encodeFile (key data : Bytes) : (encodeFile key data).drop 4 = key ++ data := by
  rw [encodeFile, List.append_assoc, List.drop_left' (LittleEndian.length_bytes ..)]

@[simp] theorem length_encodeFile (key data : Bytes) :
    (encodeFile key data).length = entrySize key data.length := by
  simp [encodeFile, entrySize, Nat.add_assoc]

/-- The header guards the file: its key can be read back. -/
theorem storedKey_encodeFile {key : Bytes} (hkey : key.length < 2 ^ 32) (data : Bytes) :
    storedKey (encodeFile key data) = some key := by
  have hlen : LittleEndian.value (LittleEndian.bytes 4 key.length) = key.length := by
    rw [LittleEndian.value_bytes, Nat.mod_eq_of_lt (by norm_num at hkey ⊢; exact hkey)]
  have hlong : ¬ (encodeFile key data).length < 4 := by simp [entrySize]; omega
  simp only [storedKey, take_encodeFile, drop_encodeFile, hlen, List.take_left, hlong,
    lt_irrefl, or_self, if_false]

/-- A file that has lost its end holds the key it was written with, or none. -/
theorem storedKey_take_encodeFile {key : Bytes} (hkey : key.length < 2 ^ 32)
    {data kept key' : Bytes}
    (hkept : kept <+: encodeFile key data) (hstored : storedKey kept = some key') : key' = key := by
  have hwhole := storedKey_encodeFile hkey data
  obtain ⟨rest, hrest⟩ := hkept
  unfold storedKey at hstored hwhole
  dsimp only at hstored hwhole
  split at hstored
  · cases hstored
  · rename_i hlong
    obtain ⟨hfour, hlength⟩ := not_or.mp hlong
    -- What is left has the header and the key of the whole file.
    have htake : (encodeFile key data).take 4 = kept.take 4 := by
      rw [← hrest, List.take_append_of_le_length (by omega)]
    have hdrop : (encodeFile key data).drop 4 = kept.drop 4 ++ rest := by
      rw [← hrest, List.drop_append_of_le_length (by omega)]
    rw [htake, hdrop] at hwhole
    split at hwhole
    · cases hwhole
    · rw [Option.some.injEq] at hstored hwhole
      rw [← hstored, ← hwhole, List.take_append_of_le_length]
      rw [List.length_take] at hlength
      omega

theorem encodeFile_inj {key key' data data' : Bytes} (hkey : key.length < 2 ^ 32)
    (hkey' : key'.length < 2 ^ 32) (heq : encodeFile key data = encodeFile key' data') :
    key = key' ∧ data = data' := by
  have hstored := storedKey_encodeFile hkey data
  rw [heq, storedKey_encodeFile hkey' data', Option.some.injEq] at hstored
  subst hstored
  have hdrop := congrArg (List.drop 4) heq
  rw [drop_encodeFile, drop_encodeFile] at hdrop
  exact ⟨rfl, List.append_cancel_left hdrop⟩

theorem readEntry_encodeFile {key key' data payload : Bytes} (hkey : key.length < 2 ^ 32)
    {size : ℕ} (hread : readEntry (encodeFile key data) key' size = some payload) :
    key' = key ∧ (size = data.length → payload = data) := by
  unfold readEntry at hread
  split at hread
  · rename_i hstored
    rw [storedKey_encodeFile hkey, Option.some.injEq] at hstored
    subst hstored
    refine ⟨rfl, ?_⟩
    rintro rfl
    dsimp only at hread
    rw [← List.drop_drop, drop_encodeFile, List.drop_left, List.take_length] at hread
    simpa using hread.symm
  · cases hread

/-- What is read is in the file. -/
theorem readEntry_spec {content key payload : Bytes} {size : ℕ}
    (hread : readEntry content key size = some payload) :
    storedKey content = some key ∧ 4 + key.length + size ≤ content.length ∧
      payload = (content.drop (4 + key.length)).take size := by
  unfold readEntry at hread
  split at hread
  · rename_i hstored
    dsimp only at hread
    split at hread
    · cases hread
    · rename_i hlong
      refine ⟨hstored, ?_, (Option.some.inj hread).symm⟩
      have hkey : key.length ≤ content.length - 4 ∧ 4 ≤ content.length := by
        unfold storedKey at hstored
        dsimp only at hstored
        split at hstored
        · cases hstored
        · rename_i hheader
          have hlength := congrArg List.length (Option.some.inj hstored)
          rw [List.length_take, List.length_drop] at hlength
          omega
      rw [List.length_take, List.length_drop] at hlong
      omega
  · cases hread

/-- A file from which all data can be read has not lost its end. -/
theorem whole_of_read {kept key data payload : Bytes} (hkept : kept <+: encodeFile key data)
    (hread : readEntry kept key data.length = some payload) : kept = encodeFile key data := by
  refine hkept.eq_of_length_le ?_
  rw [length_encodeFile, entrySize]
  exact (readEntry_spec hread).2.1

theorem mem_of_lookup {α β : Type*} [BEq α] [LawfulBEq α] {l : List (α × β)} {a : α} {b : β}
    (hlookup : l.lookup a = some b) : (a, b) ∈ l := by
  obtain ⟨before, after, rfl, -⟩ := List.lookup_eq_some_iff.mp hlookup
  simp

/-! ## What the directory holds -/

/-- The files have distinct names; one that says a key has the name of that key, and a content
that is good for it. -/
structure Disk.Labelled (good : Bytes → Bytes → Prop) (disk : Disk) : Prop where
  names : (disk.files.map Prod.fst).Nodup
  keys : ∀ item ∈ disk.files, ∀ key, storedKey item.2.content = some key → item.1 = pathFor key
  contents : ∀ item ∈ disk.files, ∀ key, storedKey item.2.content = some key →
    good key item.2.content

/-- The files have distinct names, each that of the key in the file. -/
abbrev Disk.Named (disk : Disk) : Prop := disk.Labelled fun _ _ => True

section Labelled

variable {good : Bytes → Bytes → Prop} {disk : Disk}

theorem Disk.Labelled.sublist {after : Disk} (hdisk : disk.Labelled good)
    (hfiles : after.files.Sublist disk.files) : after.Labelled good where
  names := hdisk.names.sublist (hfiles.map _)
  keys item hitem := hdisk.keys item (hfiles.subset hitem)
  contents item hitem := hdisk.contents item (hfiles.subset hitem)

/-- A file may lose its end when it is written. -/
theorem Disk.Labelled.write (fs : FileSystem) (hdisk : disk.Labelled good) {key data : Bytes}
    (hkey : key.length < 2 ^ 32) (hgood : ∀ kept, kept <+: encodeFile key data → good key kept) :
    (disk.write fs (pathFor key) (encodeFile key data)).2.Labelled good := by
  unfold Disk.write
  cases hleft : fs.left disk.accesses (encodeFile key data) with
  | none => exact hdisk.sublist List.filter_sublist
  | some kept =>
      have hkept := (FileSystem.left_spec hleft).1
      refine ⟨?_, fun item hitem other hstored => ?_, fun item hitem other hstored => ?_⟩
      · refine List.nodup_cons.mpr ⟨?_, hdisk.names.sublist (List.filter_sublist.map _)⟩
        simp [Disk.remove]
      · rcases List.mem_cons.mp hitem with rfl | hold
        · rw [storedKey_take_encodeFile hkey hkept hstored]
        · exact hdisk.keys item (List.mem_filter.mp hold).1 other hstored
      · rcases List.mem_cons.mp hitem with rfl | hold
        · rw [storedKey_take_encodeFile hkey hkept hstored]
          exact hgood kept hkept
        · exact hdisk.contents item (List.mem_filter.mp hold).1 other hstored

end Labelled

/-- Every file was written by `put`, under a key and with data that belong together. -/
structure Disk.Sound (good : Bytes → Bytes → Prop) (disk : Disk) : Prop where
  names : (disk.files.map Prod.fst).Nodup
  files : ∀ item ∈ disk.files, ∃ key data, item.1 = pathFor key ∧
    item.2.content = encodeFile key data ∧ key.length < 2 ^ 32 ∧ good key data

theorem Disk.Sound.named {good : Bytes → Bytes → Prop} {disk : Disk} (hdisk : disk.Sound good) :
    disk.Named where
  names := hdisk.names
  keys item hitem key hstored := by
    obtain ⟨key', data, hname, hcontent, hkey, -⟩ := hdisk.files item hitem
    rw [hcontent, storedKey_encodeFile hkey, Option.some.injEq] at hstored
    rw [hname, hstored]
  contents _ _ _ _ := trivial

namespace DiskStore

/-- The directory is sound, and an entry states the size of its file. -/
structure Sound (good : Bytes → Bytes → Prop) (s : DiskStore) : Prop extends
    s.disk.Sound good where
  entries : ∀ item ∈ s.entries, item.1.length < 2 ^ 32 ∧ item.2.path = pathFor item.1 ∧
    ∀ file data, (pathFor item.1, file) ∈ s.disk.files → file.content = encodeFile item.1 data →
      item.2.size = file.content.length

/-- Entries and files have only disappeared. -/
structure Shrunk (before after : DiskStore) : Prop where
  entries : after.entries.Sublist before.entries
  files : after.disk.files.Sublist before.disk.files

theorem Shrunk.refl (s : DiskStore) : Shrunk s s := ⟨List.Sublist.refl _, List.Sublist.refl _⟩

theorem Shrunk.trans {a b c : DiskStore} (hab : Shrunk a b) (hbc : Shrunk b c) : Shrunk a c :=
  ⟨hbc.entries.trans hab.entries, hbc.files.trans hab.files⟩

theorem shrunk_remove (s : DiskStore) (key : Bytes) : Shrunk s (s.remove key).2 := by
  unfold remove
  split
  · exact .refl s
  · exact ⟨List.filter_sublist, List.filter_sublist⟩

/-- Removing reads and writes nothing. -/
theorem accesses_remove (s : DiskStore) (key : Bytes) :
    (s.remove key).2.disk.accesses = s.disk.accesses := by
  unfold remove
  split <;> rfl

theorem accesses_evictUntilFits (s : DiskStore) (incoming : ℕ) :
    (s.evictUntilFits incoming).disk.accesses = s.disk.accesses := by
  have hloop : ∀ (fuel : ℕ) (s : DiskStore),
      (evictLoop incoming fuel s).disk.accesses = s.disk.accesses := by
    intro fuel
    induction fuel with
    | zero => exact fun _ => rfl
    | succ fuel ih =>
        intro s
        rw [evictLoop]
        split
        · rfl
        · split
          · rw [ih, accesses_remove]
          · rfl
  unfold evictUntilFits
  split
  · rfl
  · exact hloop _ s

theorem shrunk_evictUntilFits (s : DiskStore) (incoming : ℕ) :
    Shrunk s (s.evictUntilFits incoming) := by
  have hloop : ∀ (fuel : ℕ) (s : DiskStore), Shrunk s (evictLoop incoming fuel s) := by
    intro fuel
    induction fuel with
    | zero => exact .refl
    | succ fuel ih =>
        intro s
        rw [evictLoop]
        split
        · exact .refl s
        · split
          · exact (shrunk_remove s _).trans (ih _)
          · exact .refl s
  unfold evictUntilFits
  split
  · exact .refl s
  · exact hloop _ s

variable {good : Bytes → Bytes → Prop} {s : DiskStore}

theorem Sound.shrunk {after : DiskStore} (hsound : Sound good s) (hshrunk : Shrunk s after) :
    Sound good after where
  names := hsound.names.sublist (hshrunk.files.map _)
  files item hitem := hsound.files item (hshrunk.files.subset hitem)
  entries item hitem := by
    obtain ⟨hkey, hpath, hsize⟩ := hsound.entries item (hshrunk.entries.subset hitem)
    exact ⟨hkey, hpath, fun file data hfile => hsize file data (hshrunk.files.subset hfile)⟩

theorem Sound.remove (hsound : Sound good s) (key : Bytes) : Sound good (s.remove key).2 :=
  hsound.shrunk (shrunk_remove s key)

theorem Sound.accesses (hsound : Sound good s) (accesses : ℕ) :
    Sound good { s with disk := { s.disk with accesses } } :=
  ⟨⟨hsound.names, hsound.files⟩, hsound.entries⟩

/-- A stamp changes neither paths nor sizes. -/
theorem mem_stamp {entries : List (Bytes × Entry)} {key : Bytes} {recency : ℕ}
    {item : Bytes × Entry} (hitem : item ∈ stamp entries key recency) :
    ∃ before ∈ entries, before.1 = item.1 ∧ before.2.path = item.2.path ∧
      before.2.size = item.2.size := by
  obtain ⟨before, hbefore, rfl⟩ := List.mem_map.mp hitem
  refine ⟨before, hbefore, ?_⟩
  split <;> exact ⟨rfl, rfl, rfl⟩

theorem Sound.stamp (hsound : Sound good s) (key : Bytes) (recency nextRecency : ℕ) :
    Sound good { s with entries := stamp s.entries key recency, nextRecency } := by
  refine ⟨⟨hsound.names, hsound.files⟩, fun item hitem => ?_⟩
  obtain ⟨before, hbefore, hkey, hpath, hsize⟩ := mem_stamp hitem
  rw [← hkey, ← hpath, ← hsize]
  exact hsound.entries before hbefore

/-- Writing a file takes the place of one with its name. -/
theorem Sound.write (fs : FileSystem) (hsound : Sound good s) {key data : Bytes}
    (hkey : key.length < 2 ^ 32) (hgood : good key data) {recency totalBytes nextRecency : ℕ}
    {disk : Disk} (hnoticed : fs.Notices s.disk.accesses)
    (hwrite : s.disk.write fs (pathFor key) (encodeFile key data) = (true, disk)) :
    Sound good
      { s with
        disk
        entries := (key, ⟨pathFor key, entrySize key data.length, recency⟩) ::
          s.entries.filter (·.1 ≠ key)
        totalBytes
        nextRecency } := by
  obtain ⟨mtime, hfiles⟩ : ∃ mtime, disk.files =
      (pathFor key, ⟨encodeFile key data, mtime⟩) ::
        s.disk.files.filter (·.1 ≠ pathFor key) := by
    unfold Disk.write at hwrite
    dsimp only at hwrite
    split at hwrite
    · cases hwrite
    · rename_i kept hleft
      rw [((FileSystem.left_spec hleft).2 hnoticed).2] at hwrite
      cases hwrite
      exact ⟨_, rfl⟩
  refine ⟨⟨?_, ?_⟩, ?_⟩
  · rw [hfiles, List.map_cons, List.nodup_cons]
    refine ⟨?_, hsound.names.sublist (List.filter_sublist.map _)⟩
    simp
  · intro item hitem
    rw [hfiles] at hitem
    rcases List.mem_cons.mp hitem with rfl | hold
    · exact ⟨key, data, rfl, rfl, hkey, hgood⟩
    · exact hsound.files item (List.mem_filter.mp hold).1
  · intro item hitem
    dsimp only at hitem ⊢
    rw [hfiles]
    rcases List.mem_cons.mp hitem with rfl | hold
    · refine ⟨hkey, rfl, fun file data' hfile hcontent => ?_⟩
      rcases List.mem_cons.mp hfile with heq | hrest
      · cases heq
        simp
      · simp at hrest
    · obtain ⟨hmem, hne⟩ := List.mem_filter.mp hold
      obtain ⟨hlength, hpath, hsize⟩ := hsound.entries item hmem
      refine ⟨hlength, hpath, fun file data' hfile hcontent => ?_⟩
      rcases List.mem_cons.mp hfile with heq | hrest
      · -- The file of this name now belongs to the new key.
        obtain ⟨-, rfl⟩ := Prod.mk.inj heq
        exact absurd (encodeFile_inj hkey hlength hcontent).1.symm (by simpa using hne)
      · exact hsize file data' (List.mem_filter.mp hrest).1 hcontent

variable (fs : FileSystem)

/-- `put` keeps the directory sound, whatever it evicts and whether it succeeds. -/
theorem Sound.put (hnoticed : fs.Notices s.disk.accesses) (hsound : Sound good s)
    {key data : Bytes} (hkey : key.length < 2 ^ 32) (hgood : good key data) :
    Sound good (s.put fs key data).2 := by
  unfold DiskStore.put
  dsimp only
  split
  · exact hsound
  · have hmade := hsound.shrunk ((shrunk_remove s key).trans
      (shrunk_evictUntilFits _ (entrySize key data.length)))
    split
    · rename_i disk hwrite
      refine hmade.shrunk ⟨List.Sublist.refl _, ?_⟩
      unfold Disk.write at hwrite
      dsimp only at hwrite
      split at hwrite
      · cases hwrite
        exact List.filter_sublist
      · cases hwrite
    · rename_i disk hwrite
      refine hmade.write fs hkey hgood ?_ hwrite
      rwa [accesses_evictUntilFits, accesses_remove]

/-- `get` returns what belongs to the key. -/
theorem Sound.get (hsound : Sound good s) (key : Bytes) :
    Sound good (s.get fs key).2 ∧ ∀ data, (s.get fs key).1 = some data → good key data := by
  unfold DiskStore.get
  split
  · exact ⟨hsound, by simp⟩
  · rename_i e hlookup
    have hread := hsound.accesses (s.disk.accesses + 1)
    dsimp only [Disk.read]
    split
    · exact ⟨hread.remove key, by simp⟩
    · rename_i payload hpayload
      refine ⟨hread.stamp key _ _, ?_⟩
      rintro data heq
      obtain rfl : payload = data := by simpa using heq
      obtain ⟨content, hcontent, hpayload⟩ := Option.bind_eq_some_iff.mp hpayload
      split at hcontent
      · cases hcontent
      · obtain ⟨file, hfile, rfl⟩ := Option.map_eq_some_iff.mp hcontent
        have hentry := hsound.entries _ (mem_of_lookup hlookup)
        obtain ⟨hlength, hpath, hsize⟩ := hentry
        have hmem := mem_of_lookup hfile
        obtain ⟨key', data', -, hwritten, hkey', hgood⟩ := hsound.files _ hmem
        dsimp only at hwritten hpath
        rw [hwritten] at hpayload
        obtain ⟨rfl, hdata⟩ := readEntry_encodeFile hkey' hpayload
        rw [hpath] at hmem
        have hsize := hsize file data' hmem hwritten
        rw [hdata (by rw [hsize, hwritten, length_encodeFile, entrySize]; omega)]
        exact hgood

/-! ## Opening a directory -/

/-- The index built so far describes files of the directory. -/
def Describes (disk : Disk) (entries : List (Bytes × Entry)) : Prop :=
  ∀ item ∈ entries, ∃ file, (item.2.path, file) ∈ disk.files ∧
    storedKey file.content = some item.1 ∧ item.2.size = file.content.length

theorem describes_scanFile {disk : Disk} {scan : Scan} (hscan : Describes disk scan.entries)
    {item : Bytes × File} (hitem : item ∈ disk.files) :
    Describes disk (scanFile fs scan item).entries := by
  unfold scanFile
  split
  · dsimp only
    split
    · exact hscan
    · rename_i key hkey
      dsimp only
      split
      · exact hscan
      · intro indexed hindexed
        rcases List.mem_append.mp hindexed with hold | hnew
        · exact hscan indexed hold
        · obtain rfl := List.mem_singleton.mp hnew
          refine ⟨item.2, hitem, ?_, rfl⟩
          obtain ⟨content, hcontent, hkey⟩ := Option.bind_eq_some_iff.mp hkey
          split at hcontent
          · cases hcontent
          · cases hcontent
            unfold indexKey at hkey
            split at hkey
            · cases hkey
            · exact hkey
  · exact hscan

theorem describes_scan {disk : Disk} :
    ∀ (items : List (Bytes × File)) (scan : Scan), items ⊆ disk.files →
      Describes disk scan.entries → Describes disk (items.foldl (scanFile fs) scan).entries
  | [], _, _, hscan => hscan
  | _ :: rest, _, hsubset, hscan =>
      describes_scan rest _ (List.subset_of_cons_subset hsubset)
        (describes_scanFile fs hscan (hsubset (List.mem_cons_self ..)))

theorem describes_stamps {disk : Disk} :
    ∀ (order : List ((ℕ × Bytes) × ℕ)) (entries : List (Bytes × Entry)),
      Describes disk entries → Describes disk
        (order.foldl (fun entries item => stamp entries item.1.2 (item.2 + 1)) entries)
  | [], _, hentries => hentries
  | _ :: rest, _, hentries => by
      refine describes_stamps rest _ fun stamped hstamped => ?_
      obtain ⟨before, hbefore, hkey, hpath, hsize⟩ := mem_stamp hstamped
      rw [← hkey, ← hpath, ← hsize]
      exact hentries before hbefore

/-- The entries of a store that was opened on a directory describe its files. -/
theorem describes_reopen (maxBytes : ℕ) (disk : Disk) :
    Describes disk (reopen fs maxBytes disk).entries :=
  describes_stamps _ _ (describes_scan fs _ _ (List.Subset.refl _) (by simp [Describes]))

/-- A store opened on a sound directory is sound. -/
theorem sound_reopen (maxBytes : ℕ) {disk : Disk} (hdisk : disk.Sound good) :
    Sound good (reopen fs maxBytes disk) := by
  refine ⟨⟨hdisk.names, hdisk.files⟩, fun item hitem => ?_⟩
  have hindex := describes_reopen fs maxBytes disk
  obtain ⟨file, hfile, hstored, hsize⟩ := hindex item hitem
  obtain ⟨key, data, hpath, hcontent, hkey, -⟩ := hdisk.files _ hfile
  dsimp only at hpath hcontent
  rw [hcontent, storedKey_encodeFile hkey, Option.some.injEq] at hstored
  subst hstored
  refine ⟨hkey, hpath, fun file' data' hfile' hcontent' => ?_⟩
  rw [hpath] at hfile
  have hsame : (pathFor item.1, file) = (pathFor item.1, file') :=
    List.inj_on_of_nodup_map hdisk.names hfile hfile' rfl
  rw [hsize, (Prod.mk.inj hsame).2]

theorem labelled_reopen_empty (maxBytes : ℕ) {good : Bytes → Bytes → Prop} :
    (reopen fs maxBytes {}).disk.Labelled good :=
  ⟨List.nodup_nil, nofun, nofun⟩

theorem sound_reopen_empty (maxBytes : ℕ) {good : Bytes → Bytes → Prop} :
    (reopen fs maxBytes {}).Sound good :=
  sound_reopen fs maxBytes ⟨List.nodup_nil, nofun⟩

end DiskStore

end Reame.Cache
