import Reame.Cache.StoreRuns
import Reame.Foundation.Fnv

/-!
# Opening a directory again

The constructor goes over the files of the directory, takes the key from each and then
stamps the entries in the order of the modification times.  `seen` are the files it can
index and `readOrder` is the order of their keys.

If no two files carry the same key, the index has one entry for each of them and the
order of use is that of the modification times (`reopen_spec`).  In a directory that
`put` has written the file names keep the keys apart (`nodup_seen`), so that a new store
is `Accounted` again.
-/

namespace Reame.Cache

open Lru

/-! ## Names -/

/-- Two keys share a file exactly if their hashes collide. -/
theorem pathFor_eq_iff {key key' : Bytes} :
    pathFor key = pathFor key' ↔ checksum key = checksum key' :=
  ⟨fun heq => hex64_inj (List.append_cancel_right heq), fun heq => by rw [pathFor, pathFor, heq]⟩

/-- A change of one byte changes the checksum. -/
theorem checksum_byte_inj {before after : Bytes} {b b' : UInt8}
    (heq : checksum (before ++ b :: after) = checksum (before ++ b' :: after)) : b = b' :=
  Fnv.hash_byte_inj heq

theorem isKvc_pathFor (key : Bytes) : DiskStore.isKvc (pathFor key) = true := by
  have hlength : (pathFor key).length = 20 := by
    rw [pathFor, List.length_append, length_hex64]
    rfl
  have hdrop : (pathFor key).drop 16 = ascii ".kvc" := by
    rw [pathFor]
    exact List.drop_left' (length_hex64 _)
  simp [DiskStore.isKvc, hlength, hdrop]

namespace DiskStore

variable (fs : FileSystem)

/-! ## The files that are indexed -/

/-- The files that the constructor indexes and their keys, from an access on. -/
def seen : ℕ → List (Bytes × File) → List ((Bytes × File) × Bytes)
  | _, [] => []
  | access, item :: items =>
      if isKvc item.1 then
        match if fs.readFails access then none else indexKey item.2.content with
        | none => seen (access + 1) items
        | some key => (item, key) :: seen (access + 1) items
      else seen access items

/-- The keys of the files that are indexed, the oldest file first. -/
def readOrder (disk : Disk) : List Bytes :=
  (((seen fs disk.accesses disk.files).map fun x => (x.1.2.mtime, x.2)).mergeSort earlier).map
    Prod.snd

variable {fs}

theorem mem_seen {access : ℕ} {files : List (Bytes × File)} {x : (Bytes × File) × Bytes}
    (hx : x ∈ seen fs access files) :
    x.1 ∈ files ∧ isKvc x.1.1 = true ∧ indexKey x.1.2.content = some x.2 := by
  induction files generalizing access with
  | nil => cases hx
  | cons item items ih =>
      rw [seen] at hx
      by_cases hkvc : isKvc item.1 = true
      · rw [if_pos hkvc] at hx
        cases hread : (if fs.readFails access = true then none else indexKey item.2.content) with
        | none =>
            simp only [hread] at hx
            exact ⟨List.mem_cons_of_mem _ (ih hx).1, (ih hx).2⟩
        | some key =>
            simp only [hread, List.mem_cons] at hx
            rcases hx with rfl | hrest
            · refine ⟨List.mem_cons_self .., hkvc, ?_⟩
              split at hread
              · cases hread
              · exact hread
            · exact ⟨List.mem_cons_of_mem _ (ih hrest).1, (ih hrest).2⟩
      · rw [if_neg hkvc] at hx
        exact ⟨List.mem_cons_of_mem _ (ih hx).1, (ih hx).2⟩

/-- Without a read that fails nothing is overlooked. -/
theorem mem_seen_of_read {access : ℕ} {files : List (Bytes × File)}
    (hread : ∀ i, access ≤ i → i < access + files.length → fs.readFails i = false)
    {item : Bytes × File} (hitem : item ∈ files) (hkvc : isKvc item.1 = true) {key : Bytes}
    (hkey : indexKey item.2.content = some key) : (item, key) ∈ seen fs access files := by
  induction files generalizing access with
  | nil => cases hitem
  | cons head items ih =>
      rw [List.length_cons] at hread
      have hfirst : fs.readFails access = false := hread access le_rfl (by omega)
      rw [seen]
      rcases List.mem_cons.mp hitem with rfl | hrest
      · simp [hkvc, hfirst, hkey]
      · by_cases hhead : isKvc head.1 = true
        · have hlater : ∀ i, access + 1 ≤ i → i < access + 1 + items.length →
              fs.readFails i = false := fun i hle hlt => hread i (by omega) (by omega)
          rw [if_pos hhead]
          split
          · exact ih hlater hrest
          · exact List.mem_cons_of_mem _ (ih hlater hrest)
        · rw [if_neg hhead]
          exact ih (fun i hle hlt => hread i hle (by omega)) hrest

theorem seen_sublist (access : ℕ) (files : List (Bytes × File)) :
    ((seen fs access files).map Prod.fst).Sublist files := by
  induction files generalizing access with
  | nil => exact List.Sublist.refl _
  | cons item items ih =>
      rw [seen]
      split
      · split
        · exact (ih _).cons _
        · exact (ih _).cons_cons _
      · exact (ih _).cons _

theorem storedKey_of_indexKey {content key : Bytes} (hindex : indexKey content = some key) :
    storedKey content = some key ∧ key.length ≤ 4096 := by
  unfold indexKey at hindex
  split at hindex
  · cases hindex
  · rename_i hshort
    refine ⟨hindex, ?_⟩
    unfold storedKey at hindex
    dsimp only at hindex
    split at hindex
    · cases hindex
    · rw [← Option.some.inj hindex, List.length_take]
      omega

/-- Keys that are indexed are short, whatever is in the directory. -/
theorem length_of_contains_reopen {maxBytes : ℕ} {disk : Disk} {key : Bytes}
    (hmem : (reopen fs maxBytes disk).contains key = true) : key.length ≤ 4096 := by
  have hscan : ∀ (files : List (Bytes × File)) (scan : Scan),
      (∀ item ∈ scan.entries, item.1.length ≤ 4096) →
        ∀ item ∈ (files.foldl (scanFile fs) scan).entries, item.1.length ≤ 4096 := by
    intro files
    induction files with
    | nil => exact fun _ hscan => hscan
    | cons file files ih =>
        intro scan hscan
        refine ih _ ?_
        unfold scanFile
        split
        · dsimp only
          split
          · exact hscan
          · rename_i key hkey
            dsimp only
            split
            · exact hscan
            · intro item hitem
              rcases List.mem_append.mp hitem with hold | hnew
              · exact hscan item hold
              · obtain ⟨content, -, hindex⟩ := Option.bind_eq_some_iff.mp hkey
                rw [List.mem_singleton.mp hnew]
                exact (storedKey_of_indexKey hindex).2
        · exact hscan
  have hstamps : ∀ (order : List ((ℕ × Bytes) × ℕ)) (entries : List (Bytes × Entry)),
      (∀ item ∈ entries, item.1.length ≤ 4096) → ∀ item ∈ order.foldl
        (fun entries item => stamp entries item.1.2 (item.2 + 1)) entries,
          item.1.length ≤ 4096 := by
    intro order
    induction order with
    | nil => exact fun _ hentries => hentries
    | cons first order ih =>
        refine fun entries hentries => ih _ fun item hitem => ?_
        obtain ⟨before, hbefore, hkey, -⟩ := mem_stamp hitem
        rw [← hkey]
        exact hentries before hbefore
  obtain ⟨item, hitem, rfl⟩ := List.mem_map.mp (contains_iff.mp hmem)
  exact hstamps _ _ (hscan _ _ (by simp)) item hitem

/-- The file names keep the keys apart. -/
theorem nodup_seen {disk : Disk} (hdisk : disk.Named) (access : ℕ) :
    ((seen fs access disk.files).map Prod.snd).Nodup := by
  have hnames : (((seen fs access disk.files).map Prod.snd).map pathFor) =
      ((seen fs access disk.files).map Prod.fst).map Prod.fst := by
    rw [List.map_map, List.map_map]
    refine List.map_congr_left fun x hx => ?_
    obtain ⟨hmem, -, hindex⟩ := mem_seen hx
    rw [Function.comp_apply, Function.comp_apply,
      hdisk.keys _ hmem _ (storedKey_of_indexKey hindex).1]
  refine List.Nodup.of_map pathFor ?_
  rw [hnames]
  exact hdisk.names.sublist ((seen_sublist access disk.files).map _)

/-! ## The index -/

/-- The entry of a file, before the stamps are set. -/
def unstamped (x : (Bytes × File) × Bytes) : Bytes × Entry := (x.2, ⟨x.1.1, x.1.2.content.length, 0⟩)

/-- The index under construction, when no key is found twice. -/
theorem scan_spec (fs : FileSystem) (files : List (Bytes × File)) (scan : Scan)
    (hkeys : (scan.entries.map Prod.fst ++ (seen fs scan.accesses files).map Prod.snd).Nodup)
    (htotal : scan.totalBytes = scan.totalBytes % 2 ^ 64) :
    (files.foldl (scanFile fs) scan).entries =
        scan.entries ++ (seen fs scan.accesses files).map unstamped ∧
      (files.foldl (scanFile fs) scan).found =
        scan.found ++ (seen fs scan.accesses files).map (fun x => (x.1.2.mtime, x.2)) ∧
      (files.foldl (scanFile fs) scan).totalBytes =
        (scan.totalBytes + sizes ((seen fs scan.accesses files).map unstamped)) % 2 ^ 64 := by
  induction files generalizing scan with
  | nil => simpa [seen, sizes] using htotal
  | cons item items ih =>
      rw [List.foldl_cons, scanFile]
      rw [seen] at hkeys ⊢
      by_cases hkvc : isKvc item.1 = true
      · rw [if_pos hkvc] at hkeys ⊢
        rw [if_pos hkvc]
        by_cases hfail : fs.readFails scan.accesses = true
        · simp only [if_pos hfail, Option.bind_none] at hkeys ⊢
          exact ih _ hkeys htotal
        · simp only [if_neg hfail, Option.bind_some] at hkeys ⊢
          cases hkey : indexKey item.2.content with
          | none =>
              simp only [hkey] at hkeys ⊢
              exact ih _ hkeys htotal
          | some key =>
              simp only [hkey] at hkeys ⊢
              have hnew : scan.entries.lookup key = none := by
                refine List.lookup_eq_none_iff.mpr fun old hold => ?_
                have hne := (List.nodup_append.mp hkeys).2.2 _ (List.mem_map_of_mem hold) key
                  (List.mem_cons_self ..)
                simpa using hne.symm
              simp only [hnew, Option.isSome_none, Bool.false_eq_true, if_false]
              obtain ⟨hentries, hfound, hsum⟩ := ih
                { scan with
                  accesses := scan.accesses + 1
                  entries := scan.entries ++ [(key, ⟨item.1, item.2.content.length, 0⟩)]
                  totalBytes := (scan.totalBytes + item.2.content.length) % 2 ^ 64
                  found := scan.found ++ [(item.2.mtime, key)] }
                (by simpa [List.append_assoc] using hkeys) (by simp)
              refine ⟨?_, ?_, ?_⟩
              · rw [hentries]
                simp [unstamped]
              · rw [hfound]
                simp
              · rw [hsum]
                simp only [sizes, List.map_cons, List.sum_cons, unstamped, Nat.mod_add_mod,
                  Nat.add_assoc]
      · rw [if_neg hkvc] at hkeys ⊢
        rw [if_neg hkvc]
        exact ih scan hkeys htotal

/-- Stamping keys one after the other. -/
theorem stamps_spec (order : List (ℕ × Bytes)) (hkeys : (order.map Prod.snd).Nodup) (start : ℕ)
    (entries : List (Bytes × Entry)) :
    (order.zipIdx start).foldl (fun entries item => stamp entries item.1.2 (item.2 + 1)) entries =
      entries.map fun item =>
        if item.1 ∈ order.map Prod.snd then
          (item.1, { item.2 with recency := start + (order.map Prod.snd).idxOf item.1 + 1 })
        else item := by
  induction order generalizing start entries with
  | nil => simp
  | cons first order ih =>
      rw [List.map_cons, List.nodup_cons] at hkeys
      rw [List.zipIdx_cons, List.foldl_cons, ih hkeys.2, stamp, List.map_map]
      refine List.map_congr_left fun item _ => ?_
      rw [Function.comp_apply]
      by_cases hfirst : item.1 = first.2
      · simp [hfirst, hkeys.1]
      · rw [if_neg hfirst]
        by_cases hmem : item.1 ∈ order.map Prod.snd
        · have hindex : (List.map Prod.snd (first :: order)).idxOf item.1 =
              (order.map Prod.snd).idxOf item.1 + 1 := by
            rw [List.map_cons, List.idxOf_cons_ne _ (Ne.symm hfirst)]
          have hall : item.1 ∈ List.map Prod.snd (first :: order) :=
            List.mem_cons_of_mem _ hmem
          have hstamp : start + 1 + (order.map Prod.snd).idxOf item.1 + 1 =
              start + ((order.map Prod.snd).idxOf item.1 + 1) + 1 := by omega
          rw [if_pos hmem, if_pos hall, hindex, hstamp]
        · have hall : item.1 ∉ List.map Prod.snd (first :: order) := by
            rw [List.map_cons, List.mem_cons, not_or]
            exact ⟨hfirst, hmem⟩
          rw [if_neg hmem, if_neg hall]

theorem readOrder_perm (fs : FileSystem) (disk : Disk) :
    (readOrder fs disk).Perm ((seen fs disk.accesses disk.files).map Prod.snd) := by
  have hperm := (List.mergeSort_perm
    ((seen fs disk.accesses disk.files).map fun x => (x.1.2.mtime, x.2)) earlier).map Prod.snd
  rwa [List.map_map] at hperm

/-- The entries of a store that is opened on files with distinct keys. -/
theorem entries_reopen (fs : FileSystem) (maxBytes : ℕ) {disk : Disk}
    (hkeys : ((seen fs disk.accesses disk.files).map Prod.snd).Nodup) :
    (reopen fs maxBytes disk).entries = ((seen fs disk.accesses disk.files).map fun x =>
        (x.2, ⟨x.1.1, x.1.2.content.length, (readOrder fs disk).idxOf x.2 + 1⟩)) ∧
      (reopen fs maxBytes disk).totalBytes =
        sizes (reopen fs maxBytes disk).entries % 2 ^ 64 ∧
      (reopen fs maxBytes disk).nextRecency = (readOrder fs disk).length + 1 := by
  obtain ⟨hentries, hfound, htotal⟩ := scan_spec fs disk.files
    { accesses := disk.accesses } (by simpa using hkeys) rfl
  simp only [List.nil_append, Nat.zero_add] at hentries hfound htotal
  have horder : (((seen fs disk.accesses disk.files).map
      fun x => (x.1.2.mtime, x.2)).mergeSort earlier).map Prod.snd = readOrder fs disk := rfl
  have hnodup : (readOrder fs disk).Nodup := (readOrder_perm fs disk).nodup_iff.mpr hkeys
  have hstamped : (reopen fs maxBytes disk).entries =
      (seen fs disk.accesses disk.files).map fun x =>
        (x.2, ⟨x.1.1, x.1.2.content.length, (readOrder fs disk).idxOf x.2 + 1⟩) := by
    rw [reopen, hfound, hentries]
    dsimp only
    rw [stamps_spec _ hnodup, List.map_map]
    refine List.map_congr_left fun x hx => ?_
    have hmem : x.2 ∈ readOrder fs disk :=
      (readOrder_perm fs disk).mem_iff.mpr (List.mem_map_of_mem hx)
    rw [horder, Function.comp_apply, unstamped, if_pos hmem, Nat.zero_add]
  refine ⟨hstamped, ?_, ?_⟩
  · have hsame : sizes (reopen fs maxBytes disk).entries =
        sizes ((seen fs disk.accesses disk.files).map unstamped) := by
      rw [hstamped, sizes, sizes, List.map_map, List.map_map]
      rfl
    rw [hsame, ← htotal]
    rfl
  · rw [reopen, hfound]
    simp [readOrder]

theorem pairwise_idxOf {keys : List Bytes} (hkeys : keys.Nodup) :
    keys.Pairwise fun a b => keys.idxOf a ≤ keys.idxOf b := by
  refine List.pairwise_iff_getElem.mpr fun i j hi hj hij => ?_
  rw [hkeys.idxOf_getElem i hi, hkeys.idxOf_getElem j hj]
  exact hij.le

/-- A store that is opened on files with distinct keys is accounted for, and its order of use is
that of the modification times. -/
theorem reopen_spec (fs : FileSystem) (maxBytes : ℕ) {disk : Disk}
    (hkeys : ((seen fs disk.accesses disk.files).map Prod.snd).Nodup) :
    Accounted (reopen fs maxBytes disk) ∧
      (reopen fs maxBytes disk).queue.map Prod.fst = readOrder fs disk := by
  obtain ⟨hentries, htotal, hnext⟩ := entries_reopen fs maxBytes hkeys
  have hperm := readOrder_perm fs disk
  have hnodup : (readOrder fs disk).Nodup := hperm.nodup_iff.mpr hkeys
  have hindexed : (reopen fs maxBytes disk).entries.map Prod.fst =
      (seen fs disk.accesses disk.files).map Prod.snd := by
    rw [hentries, List.map_map]
    rfl
  have hstamp : ∀ item ∈ (reopen fs maxBytes disk).entries,
      item.1 ∈ readOrder fs disk ∧ item.2.recency = (readOrder fs disk).idxOf item.1 + 1 := by
    intro item hitem
    rw [hentries] at hitem
    obtain ⟨x, hx, rfl⟩ := List.mem_map.mp hitem
    exact ⟨hperm.mem_iff.mpr (List.mem_map_of_mem hx), rfl⟩
  have hstamps : ((reopen fs maxBytes disk).entries.map (·.2.recency)).Nodup := by
    have hrecency : (reopen fs maxBytes disk).entries.map (·.2.recency) =
        ((seen fs disk.accesses disk.files).map Prod.snd).map
          fun key => (readOrder fs disk).idxOf key + 1 := by
      rw [← hindexed, List.map_map]
      exact List.map_congr_left fun item hitem => (hstamp item hitem).2
    rw [hrecency]
    refine List.Nodup.map_on (fun a ha b hb heq => ?_) hkeys
    exact (List.idxOf_inj (hperm.mem_iff.mpr ha)).mp (by omega)
  refine ⟨⟨hindexed ▸ hkeys, hstamps, fun item hitem => ?_, htotal⟩, ?_⟩
  · obtain ⟨hmem, hrecency⟩ := hstamp item hitem
    have hlt := List.idxOf_lt_length_iff.mpr hmem
    rw [hrecency, hnext]
    omega
  · -- Both are the same keys in the order of their positions in `readOrder`.
    have hqueue := keys_queue_perm (reopen fs maxBytes disk)
    rw [hindexed] at hqueue
    refine List.Perm.eq_of_pairwise (fun a b _ hb hab hba => ?_) ?_ (pairwise_idxOf hnodup)
      (hqueue.trans hperm.symm)
    · exact ((List.idxOf_inj hb).mp (le_antisymm hba hab)).symm
    · rw [queue, List.map_map, List.pairwise_map]
      have hsorted := pairwise_byStamp (fun item => item.2.recency)
        (reopen fs maxBytes disk).entries
      refine hsorted.imp_of_mem fun ha hb hab => ?_
      have hfirst := (hstamp _ ((mem_byStamp _).mp ha)).2
      have hsecond := (hstamp _ ((mem_byStamp _).mp hb)).2
      rw [hfirst, hsecond] at hab
      exact Nat.le_of_succ_le_succ hab

/-- A store on an empty directory. -/
theorem reopen_empty (fs : FileSystem) (maxBytes : ℕ) :
    reopen fs maxBytes {} = ⟨maxBytes, [], 0, 1, {}⟩ := by
  simp [reopen]

end DiskStore

end Reame.Cache
