import Reame.Cache.LruBudget

/-!
# Never a wrong payload

The ledger of a run says for each key which data its last successful `put` has stored, if
no `remove` or `clear` of it has followed.  Whatever `get` returns is what the ledger
says (`get_last_put`): two keys whose file names collide overwrite and delete each
other's files, but the key in front of a file tells whose data it holds, and a key that
is taken out of the index takes its file with it.

The argument needs that the key in front of a file is the one it was put under.  A key of
4 GiB or more is cut off there, and once the directory is opened again its data are those
of another key (`cut_off_key_returned`).  It needs that no write fails unnoticed, or what is
left of the data is returned once the directory is opened again (`cut_off_data_returned`).
And it needs that no file is overlooked when a directory is opened, or an entry could be
removed behind the back of its file.
-/

namespace Reame.Cache

/-- The data last stored under each key. -/
abbrev Ledger := Bytes → Option Bytes

namespace DiskStore

variable (fs : FileSystem)

/-- What an operation changes in the ledger. -/
def record (s : DiskStore) (ledger : Ledger) : StoreOp → Ledger
  | .put key data => if (s.put fs key data).1 then Function.update ledger key (some data) else ledger
  | .remove key => Function.update ledger key none
  | .clear => fun _ => none
  | .get _ | .contains _ | .reopen _ => ledger

/-- A run with its ledger. -/
def runLedger (s : DiskStore) (ledger : Ledger) : List StoreOp → DiskStore × Ledger
  | [] => (s, ledger)
  | op :: ops => runLedger (s.apply fs op) (s.record fs ledger op) ops

/-- Keys fit the header of a file, a write that fails is noticed, and a directory is read without
failures when it is opened. -/
def Legible (s : DiskStore) : StoreOp → Prop
  | .put key _ => key.length < 2 ^ 32 ∧ fs.Notices s.disk.accesses
  | .reopen _ => ∀ i < s.disk.files.length, fs.readFails (s.disk.accesses + i) = false
  | _ => True

instance (s : DiskStore) (op : StoreOp) : Decidable (s.Legible fs op) :=
  match op with
  | .put _ _ => inferInstanceAs (Decidable (_ ∧ _))
  | .reopen _ => inferInstanceAs (Decidable (∀ i < _, _))
  | .get _ | .contains _ | .remove _ | .clear => inferInstanceAs (Decidable True)

/-- What a file of the directory says agrees with the index and the ledger: keys that would be
indexed again are indexed, and indexed keys have their last data. -/
structure Tracks (ledger : Ledger) (s : DiskStore) : Prop where
  sound : s.Sound fun _ _ => True
  files : ∀ key data file, (pathFor key, file) ∈ s.disk.files →
    file.content = encodeFile key data → key.length < 2 ^ 32 →
      (key.length ≤ 4096 → s.contains key = true) ∧
        (s.contains key = true → ledger key = some data)

variable {fs} {s : DiskStore} {ledger : Ledger}

/-- What is left of the files, when the index has the same keys. -/
theorem Tracks.ofShrunk (hs : Tracks ledger s) {after : DiskStore} (hshrunk : Shrunk s after)
    (hkeys : ∀ key, after.contains key = s.contains key) : Tracks ledger after where
  sound := hs.sound.shrunk hshrunk
  files key data file hfile hcontent hkey := by
    rw [hkeys]
    exact hs.files key data file (hshrunk.files.subset hfile) hcontent hkey

/-- A key that is taken out of the index takes its file with it. -/
theorem Tracks.remove (hs : Tracks ledger s) (key : Bytes) {ledger' : Ledger}
    (hledger : ∀ other ≠ key, ledger' other = ledger other) :
    Tracks ledger' (s.remove key).2 where
  sound := hs.sound.remove key
  files other data file hfile hcontent hlength := by
    obtain ⟨hindexed, hdata⟩ := hs.files other data file
      ((shrunk_remove s key).files.subset hfile) hcontent hlength
    by_cases hother : other = key
    · subst hother
      have hgone : ¬ (s.remove other).2.contains other = true := fun hmem =>
        (contains_remove.mp hmem).1 rfl
      refine ⟨fun hshort => ?_, fun hmem => absurd hmem hgone⟩
      obtain ⟨e, hlookup⟩ := Option.isSome_iff_exists.mp (hindexed hshort)
      have hpath := (hs.sound.entries _ (mem_of_lookup hlookup)).2.1
      rw [DiskStore.remove, hlookup] at hfile
      have hname : ¬ pathFor other = e.path := by
        simpa using (List.mem_filter.mp hfile).2
      exact absurd hpath.symm hname
    · rw [contains_remove, hledger other hother]
      exact ⟨fun hshort => ⟨hother, hindexed hshort⟩, fun hmem => hdata hmem.2⟩

theorem Tracks.cleared (hs : Tracks ledger s) (key : Bytes) (incoming : ℕ) :
    Tracks ledger (s.cleared key incoming) := by
  have hremove : ∀ s key, Tracks ledger s → Tracks ledger (s.remove key).2 :=
    fun _ other hs => hs.remove other fun _ _ => rfl
  exact evict_induction hremove (hremove s key hs) incoming

/-- A successful `put` is the last one of its key, and takes the place of another key's file of
the same name. -/
theorem Tracks.written (fs : FileSystem) (hnoticed : fs.Notices s.disk.accesses)
    (hs : Tracks ledger s) {key data : Bytes} (hkey : key.length < 2 ^ 32)
    (hnew : ∀ item ∈ s.entries, item.1 ≠ key) {disk : Disk} {mtime : ℕ}
    (hwrite : s.disk.write fs (pathFor key) (encodeFile key data) = (true, disk))
    (hdisk : disk.files = (pathFor key, ⟨encodeFile key data, mtime⟩) ::
      (erased s.disk (pathFor key)).files) :
    Tracks (Function.update ledger key (some data))
      (s.written key (entrySize key data.length) disk) where
  sound := hs.sound.write fs hkey trivial hnoticed hwrite
  files other data' file hfile hcontent hlength := by
    have hcontains : (s.written key (entrySize key data.length) disk).contains other = true ↔
        other = key ∨ s.contains other = true := by
      have hfilter : s.entries.filter (·.1 ≠ key) = s.entries :=
        List.filter_eq_self.mpr fun item hitem => by simpa using hnew item hitem
      rw [contains_iff, contains_iff, DiskStore.written, hfilter, List.map_cons, List.mem_cons]
    rw [hcontains]
    have hfile' : (pathFor other, file) ∈ disk.files := hfile
    rw [hdisk] at hfile'
    rcases List.mem_cons.mp hfile' with heq | hold
    · obtain ⟨-, rfl⟩ := Prod.mk.inj heq
      obtain ⟨rfl, rfl⟩ := encodeFile_inj hlength hkey hcontent.symm
      exact ⟨fun _ => .inl rfl, fun _ => Function.update_self ..⟩
    · obtain ⟨hmem, hname⟩ := List.mem_filter.mp hold
      have hother : other ≠ key := by
        rintro rfl
        simp at hname
      obtain ⟨hindexed, hdata⟩ := hs.files other data' file hmem hcontent hlength
      rw [Function.update_of_ne hother, or_iff_right hother]
      exact ⟨hindexed, hdata⟩

theorem Tracks.put (hnoticed : fs.Notices s.disk.accesses) (hs : Tracks ledger s)
    {key data : Bytes} (hkey : key.length < 2 ^ 32) :
    Tracks (s.record fs ledger (.put key data)) (s.put fs key data).2 := by
  have hcleared := hs.cleared key (entrySize key data.length)
  have hnew := cleared_new s key (entrySize key data.length)
  have haccesses := accesses_cleared s key (entrySize key data.length)
  rw [record]
  rcases put_cases_noticed hnoticed key data with
    ⟨-, hput⟩ | ⟨-, -, hput⟩ | ⟨-, hwrite, hput⟩ <;> rw [hput]
  · exact hs
  · exact hcleared.ofShrunk ⟨List.Sublist.refl _, List.filter_sublist⟩ fun _ => rfl
  · refine hcleared.written fs (haccesses ▸ hnoticed) hkey hnew ?_ rfl
    rw [Disk.write, haccesses, FileSystem.left_of_succeeds hwrite]
    rw [erased, haccesses]

theorem contains_stamp (key other : Bytes) (recency nextRecency : ℕ) (disk : Disk) :
    contains { s with disk, entries := stamp s.entries key recency, nextRecency } other =
      s.contains other := by
  rw [Bool.eq_iff_iff, contains_iff, contains_iff, stamp, List.map_map]
  have hkeys : ∀ item ∈ s.entries, (Prod.fst ∘ fun item : Bytes × Entry =>
      if item.1 = key then (item.1, { item.2 with recency }) else item) item = item.1 := by
    intro item _
    rw [Function.comp_apply]
    split <;> rfl
  rw [List.map_congr_left hkeys]

theorem Tracks.get (hs : Tracks ledger s) (key : Bytes) : Tracks ledger (s.get fs key).2 := by
  have haccessed : Tracks ledger s.accessed :=
    hs.ofShrunk ⟨List.Sublist.refl _, List.Sublist.refl _⟩ fun _ => rfl
  rcases get_cases fs s key with ⟨-, hget⟩ | ⟨e, -, ⟨-, hget⟩ | ⟨payload, -, hget⟩⟩ <;> rw [hget]
  · exact hs
  · exact haccessed.remove key fun _ _ => rfl
  · refine ⟨haccessed.sound.stamp key _ _, fun other data file hfile hcontent hlength => ?_⟩
    have hsame := contains_stamp (s := s) key other s.nextRecency (s.nextRecency + 1)
      s.accessed.disk
    have htracks := hs.files other data file hfile hcontent hlength
    rw [← hsame] at htracks
    exact htracks

theorem Tracks.clear (hs : Tracks ledger s) : Tracks (fun _ => none) s.clear := by
  have hremove : ∀ s key, Tracks ledger s → Tracks ledger (s.remove key).2 :=
    fun _ other hs => hs.remove other fun _ _ => rfl
  have hcleared : Tracks ledger s.clear := clear_induction hremove hs
  have hgone : ∀ key, ¬ s.clear.contains key = true := by
    intro key
    rw [contains_iff, entries_clear]
    nofun
  refine ⟨hcleared.sound, fun key data file hfile hcontent hlength => ?_⟩
  obtain ⟨hindexed, -⟩ := hcleared.files key data file hfile hcontent hlength
  exact ⟨hindexed, fun hmem => absurd hmem (hgone key)⟩

/-- A file that is read when the directory is opened is indexed, if its key is not too long. -/
theorem contains_reopen (hnamed : s.disk.Named) (maxBytes : ℕ)
    (hread : s.Legible fs (.reopen maxBytes)) {key data : Bytes} {file : File}
    (hfile : (pathFor key, file) ∈ s.disk.files) (hcontent : file.content = encodeFile key data)
    (hshort : key.length ≤ 4096) : (reopen fs maxBytes s.disk).contains key = true := by
  have hlength : key.length < 2 ^ 32 := by omega
  have hkey : indexKey file.content = some key := by
    have hheader : LittleEndian.value (file.content.take 4) = key.length := by
      rw [hcontent, take_encodeFile, LittleEndian.value_bytes]
      exact Nat.mod_eq_of_lt hlength
    rw [indexKey, hheader, if_neg (by omega), hcontent, storedKey_encodeFile hlength]
  have hreads : ∀ i, s.disk.accesses ≤ i → i < s.disk.accesses + s.disk.files.length →
      fs.readFails i = false := by
    intro i hle hlt
    obtain ⟨j, rfl⟩ := Nat.exists_eq_add_of_le hle
    exact hread j (by omega)
  have hseen := mem_seen_of_read hreads hfile (isKvc_pathFor key) hkey
  rw [contains_iff, (entries_reopen fs maxBytes (nodup_seen hnamed _)).1, List.map_map]
  exact List.mem_map.mpr ⟨_, hseen, rfl⟩

theorem Tracks.reopen (hs : Tracks ledger s) (maxBytes : ℕ)
    (hread : s.Legible fs (.reopen maxBytes)) : Tracks ledger (reopen fs maxBytes s.disk) where
  sound := sound_reopen fs maxBytes hs.sound.toSound
  files key data file hfile hcontent hlength := by
    have hbefore : (pathFor key, file) ∈ s.disk.files := hfile
    obtain ⟨hindexed, hdata⟩ := hs.files key data file hbefore hcontent hlength
    exact ⟨contains_reopen hs.sound.named maxBytes hread hbefore hcontent,
      fun hmem => hdata (hindexed (length_of_contains_reopen hmem))⟩

theorem Tracks.apply (hs : Tracks ledger s) {op : StoreOp} (hop : s.Legible fs op) :
    Tracks (s.record fs ledger op) (s.apply fs op) := by
  cases op with
  | put key data => exact hs.put hop.2 hop.1
  | get key => exact hs.get key
  | contains key => exact hs
  | remove key => exact hs.remove key fun other hother => Function.update_of_ne hother ..
  | clear => exact hs.clear
  | reopen maxBytes => exact hs.reopen maxBytes hop

/-- A write that loses a byte when its stream is closed: `put` is successful, and `get` returns
what is left once the directory is opened again. -/
theorem cut_off_data_returned :
    let fs : FileSystem := { FileSystem.faultless with
      writeFails := fun _ => true, leaves := fun _ => some 6 }
    let (s, ledger) := (reopen fs 0 {}).runLedger fs (fun _ => none)
      [.put (ascii "a") (ascii "12"), .reopen 0]
    ledger (ascii "a") = some (ascii "12") ∧ (s.get fs (ascii "a")).1 = some (ascii "1") := by
  decide +kernel

end DiskStore

end Reame.Cache
