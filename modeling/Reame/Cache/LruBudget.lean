import Reame.Cache.Reopening

/-!
# The byte budget

Whatever is done with a store that was opened on an empty directory, `total_bytes_` is
the sum of the sizes in the index, the recency stamps are distinct, and a `put` evicts as
little as it can: the shortest front of the queue of the other entries without which the
new one fits (`lru_budget`).

The accounting needs what `Fits` says.  `put` writes the length of the key into 32 bits,
so that a key of 4 GiB or more is cut off in its file, and two files can then carry one
key; opening the directory counts the bytes of both for one entry
(`long_keys_counted_twice`).
-/

namespace Reame.Cache

open Lru

namespace DiskStore

/-- The bytes in the files of a directory. -/
def diskBytes (disk : Disk) : ℕ := (disk.files.map (·.2.content.length)).sum

/-- The length of a key fits the header of its file, and the sizes add up in 64 bits. -/
def Fits (s : DiskStore) : StoreOp → Prop
  | .put key data => key.length < 2 ^ 32 ∧ sizes s.entries + entrySize key data.length < 2 ^ 64
  | .reopen _ => diskBytes s.disk < 2 ^ 64
  | _ => True

instance (s : DiskStore) (op : StoreOp) : Decidable (s.Fits op) :=
  match op with
  | .put _ _ => inferInstanceAs (Decidable (_ ∧ _))
  | .reopen _ => inferInstanceAs (Decidable (_ < _))
  | .get _ | .contains _ | .remove _ | .clear => inferInstanceAs (Decidable True)

/-- What every operation preserves. -/
structure Kept (s : DiskStore) : Prop where
  named : s.disk.Named
  accounted : s.Accounted
  bounded : sizes s.entries < 2 ^ 64

variable {fs : FileSystem} {s : DiskStore}

theorem Kept.remove (hs : Kept s) (key : Bytes) : Kept (s.remove key).2 where
  named := hs.named.sublist (shrunk_remove s key).files
  accounted := hs.accounted.remove key
  bounded := by
    rw [entries_remove]
    exact (sizes_le_of_sublist List.filter_sublist).trans_lt hs.bounded

theorem Kept.put (hs : Kept s) {key data : Bytes} (hfits : s.Fits (.put key data)) :
    Kept (s.put fs key data).2 where
  named := labelled_put fs hs.named hfits.1 fun _ _ => trivial
  accounted := (put_spec fs hs.accounted key data).1
  bounded := by
    obtain ⟨-, hqueue, -⟩ := put_spec fs hs.accounted key data
    by_cases hlarge : s.maxBytes ≠ 0 ∧ s.maxBytes < entrySize key data.length
    · rw [put_refused fs hlarge]
      exact hs.bounded
    · have hroom := Queue.weight_makeRoom_le
        (overfull s.maxBytes (entrySize key data.length)) (s.queue.filter (·.1 ≠ key))
      have hothers := Queue.weight_sublist
        (List.filter_sublist (p := fun item => decide (item.1 ≠ key)) (l := s.queue))
      have hlast : Queue.weight (if (s.put fs key data).1 = true then
          [(key, entrySize key data.length)] else []) ≤ entrySize key data.length := by
        split <;> simp
      have hbefore := weight_queue s
      have hsum := hfits.2
      rw [← weight_queue, hqueue hlarge, Queue.weight_append]
      omega

theorem Kept.get (hs : Kept s) (key : Bytes) : Kept (s.get fs key).2 where
  named := hs.named.sublist (files_get fs s key)
  accounted := (get_spec fs hs.accounted key).1
  bounded := (get_spec fs hs.accounted key).2.1.trans_lt hs.bounded

theorem Kept.reopen (hs : Kept s) (maxBytes : ℕ) (hfits : s.Fits (.reopen maxBytes)) :
    Kept (reopen fs maxBytes s.disk) where
  named := hs.named.sublist (List.Sublist.refl _)
  accounted := (reopen_spec fs maxBytes (nodup_seen hs.named _)).1
  bounded := by
    obtain ⟨hentries, -⟩ := entries_reopen fs maxBytes (nodup_seen hs.named _)
    have hsizes : sizes (DiskStore.reopen fs maxBytes s.disk).entries =
        (((seen fs s.disk.accesses s.disk.files).map Prod.fst).map (·.2.content.length)).sum := by
      rw [hentries, sizes, List.map_map, List.map_map]
      rfl
    rw [hsizes]
    refine lt_of_le_of_lt ?_ hfits
    exact ((seen_sublist _ _).map _).sum_le_sum (by simp)

theorem Kept.apply (hs : Kept s) {op : StoreOp} (hfits : s.Fits op) : Kept (s.apply fs op) := by
  cases op with
  | put key data => exact hs.put hfits
  | get key => exact hs.get key
  | contains key => exact hs
  | remove key => exact hs.remove key
  | clear => exact clear_induction (fun _ key hs => Kept.remove hs key) hs
  | reopen maxBytes => exact hs.reopen maxBytes hfits

theorem kept_empty (fs : FileSystem) (maxBytes : ℕ) : Kept (reopen fs maxBytes {}) where
  named := labelled_reopen_empty fs maxBytes
  accounted := by
    rw [reopen_empty]
    exact ⟨List.nodup_nil, List.nodup_nil, nofun, rfl⟩
  bounded := by
    rw [reopen_empty]
    exact Nat.two_pow_pos 64

/-! ## What `put` evicts -/

/-- Under a budget `put` changes nothing when the entry is larger than it; when it succeeds the
budget is kept, and the other keys that are gone are the shortest front of the queue without
which the new entry fits. -/
def EvictsLeast (fs : FileSystem) (s : DiskStore) (key data : Bytes) : Prop :=
  let incoming := entrySize key data.length
  let others := s.queue.filter (·.1 ≠ key)
  let after := (s.put fs key data).2
  (s.maxBytes < incoming → s.put fs key data = (false, s)) ∧
    ((s.put fs key data).1 = true → after.totalBytes ≤ s.maxBytes ∧
      ∃ n, after.queue = others.drop n ++ [(key, incoming)] ∧
        Queue.weight (others.drop n) + incoming ≤ s.maxBytes ∧
        ∀ m < n, s.maxBytes < Queue.weight (others.drop m) + incoming)

theorem Kept.evictsLeast (hs : Kept s) (hmax : s.maxBytes ≠ 0) {key data : Bytes}
    (hfits : s.Fits (.put key data)) : EvictsLeast fs s key data := by
  obtain ⟨hafter, hqueue, -⟩ := put_spec fs hs.accounted key data
  have hput := put_cases fs s key data
  -- In what `put` compares nothing overflows.
  have hothers : ∀ m, Queue.weight ((s.queue.filter (·.1 ≠ key)).drop m) +
      entrySize key data.length < 2 ^ 64 := by
    intro m
    have hdrop := Queue.weight_sublist (((s.queue.filter (·.1 ≠ key)).drop_sublist m).trans
      List.filter_sublist)
    have hsum := hfits.2
    rw [weight_queue] at hdrop
    omega
  refine ⟨fun hlarge => ?_, fun hstored => ?_⟩
  · exact put_refused fs ⟨hmax, hlarge⟩
  · have hsmall : ¬ (s.maxBytes ≠ 0 ∧ s.maxBytes < entrySize key data.length) := by
      intro hlarge
      rw [put_refused fs hlarge] at hstored
      cases hstored
    obtain ⟨n, hroom, -, hneeded, henough⟩ := Queue.makeRoom_spec
      (overfull s.maxBytes (entrySize key data.length)) (s.queue.filter (·.1 ≠ key))
    have hafterQueue := hqueue hsmall
    rw [hroom, if_pos hstored] at hafterQueue
    have hroomy : Queue.weight ((s.queue.filter (·.1 ≠ key)).drop n) + entrySize key data.length ≤
        s.maxBytes := by
      have hzero : overfull s.maxBytes (entrySize key data.length) 0 = false := by
        have hlt := hothers (s.queue.filter (·.1 ≠ key)).length
        rw [List.drop_length, Queue.weight_nil, Nat.zero_add] at hlt
        simp only [overfull, decide_eq_false_iff_not, Nat.zero_add, Nat.mod_eq_of_lt hlt]
        exact hsmall
      have hfull := henough hzero
      simp only [overfull, decide_eq_false_iff_not, Nat.mod_eq_of_lt (hothers n)] at hfull
      by_contra hover
      exact hfull ⟨hmax, not_le.mp hover⟩
    refine ⟨?_, n, hafterQueue, hroomy, fun m hm => ?_⟩
    · rw [hafter.total, ← weight_queue, hafterQueue]
      refine (Nat.mod_le ..).trans ?_
      simpa [Queue.weight_append] using hroomy
    · have hfull := hneeded m hm
      simp only [overfull, decide_eq_true_eq, Nat.mod_eq_of_lt (hothers m)] at hfull
      exact hfull.2

/-- In every run of operations that fit, the total is the sum of the sizes, the stamps are
distinct, and every `put` under a budget evicts as little as it can. -/
theorem lru_budget (fs : FileSystem) (maxBytes : ℕ) (ops : List StoreOp)
    (hops : Throughout fs Fits (reopen fs maxBytes {}) ops) :
    let s := (reopen fs maxBytes {}).run fs ops
    s.totalBytes = sizes s.entries ∧ (s.entries.map (·.2.recency)).Nodup ∧
      ∀ key data, s.maxBytes ≠ 0 → s.Fits (.put key data) → EvictsLeast fs s key data := by
  have hkept : Kept ((reopen fs maxBytes {}).run fs ops) :=
    run_induction (fun _ _ hs hfits => hs.apply hfits) (kept_empty fs maxBytes) hops
  refine ⟨?_, hkept.accounted.stamps, fun key data hmax hfits => hkept.evictsLeast hmax hfits⟩
  rw [hkept.accounted.total, Nat.mod_eq_of_lt hkept.bounded]

/-- Three entries in a store for two of them, and the directory opened again. -/
theorem lru_budget_small :
    let ops : List StoreOp := [.put (ascii "a") (ascii "12345"), .put (ascii "b") (ascii "6789"),
      .get (ascii "a"), .put (ascii "c") (ascii "1"), .reopen 20]
    let s := (reopen .faultless 20 {}).run .faultless ops
    s.totalBytes = sizes s.entries ∧ (s.entries.map (·.2.recency)).Nodup ∧
      ∀ key data, s.maxBytes ≠ 0 → s.Fits (.put key data) → EvictsLeast .faultless s key data :=
  lru_budget .faultless 20 _ (by decide +kernel)

/-! ## Keys that do not fit the header -/

/-- What is left of a key in its file. -/
theorem indexKey_encodeFile {key : Bytes} {len : ℕ} (hlength : key.length % 2 ^ 32 = len)
    (hlen : len ≤ 4096) (data : Bytes) :
    indexKey (encodeFile key data) = some (key.take len) := by
  have hheader : LittleEndian.value ((encodeFile key data).take 4) = len := by
    rw [take_encodeFile, LittleEndian.value_bytes]
    exact hlength
  have hle : len ≤ key.length := hlength ▸ Nat.mod_le ..
  have hkey : (key ++ data).take len = key.take len := List.take_append_of_le_length hle
  have hlong : ¬ ((encodeFile key data).length < 4 ∨ (key.take len).length < len) := by
    rw [length_encodeFile, entrySize, List.length_take]
    omega
  rw [indexKey, hheader, if_neg (by omega), storedKey, hheader, drop_encodeFile, hkey]
  exact if_neg hlong

theorem sizes_stamps (order : List ((ℕ × Bytes) × ℕ)) (entries : List (Bytes × Entry)) :
    sizes (order.foldl (fun entries item => stamp entries item.1.2 (item.2 + 1)) entries) =
      sizes entries := by
  induction order generalizing entries with
  | nil => rfl
  | cons first order ih =>
      rw [List.foldl_cons, ih, sizes, sizes, stamp, List.map_map]
      refine congrArg List.sum (List.map_congr_left fun item _ => ?_)
      rw [Function.comp_apply]
      split <;> rfl

/-- Two keys with different files and the same beginning of one byte. -/
theorem counted_twice {key key' : Bytes} (hkey : key.length = 2 ^ 32 + 1)
    (hkey' : key'.length = 2 ^ 32 + 1) (htake : key.take 1 = key'.take 1)
    (hpaths : pathFor key ≠ pathFor key') :
    let s := (reopen .faultless 0 {}).run .faultless [.put key [], .put key' [], .reopen 0]
    s.totalBytes = 2 * entrySize key 0 ∧ sizes s.entries = entrySize key 0 := by
  have hne : key' ≠ key := fun heq => hpaths (heq ▸ rfl)
  have hfirst := put_new .faultless (s := ⟨0, [], 0, 1, {}⟩) rfl key rfl [] rfl
  have hnew : (put .faultless ⟨0, [], 0, 1, {}⟩ key []).2.entries.lookup key' = none := by
    rw [hfirst]
    simp [written, hne]
  have hsecond := put_new .faultless (s := (put .faultless ⟨0, [], 0, 1, {}⟩ key []).2)
    (by rw [hfirst]; rfl) key' hnew [] rfl
  have hdisk : (run .faultless ⟨0, [], 0, 1, {}⟩ [.put key [], .put key' []]).disk =
      ⟨[(pathFor key', ⟨encodeFile key' [], 1⟩), (pathFor key, ⟨encodeFile key [], 0⟩)], 2⟩ := by
    rw [run, List.foldl_cons, List.foldl_cons, List.foldl_nil, apply, apply, hsecond, hfirst]
    simp [written, erased, Disk.remove, FileSystem.faultless, hpaths]
  have hrun : run .faultless ⟨0, [], 0, 1, {}⟩ [.put key [], .put key' [], .reopen 0] =
      reopen .faultless 0 (run .faultless ⟨0, [], 0, 1, {}⟩ [.put key [], .put key' []]).disk := rfl
  have hmod : key.length % 2 ^ 32 = 1 := by rw [hkey]; norm_num
  have hmod' : key'.length % 2 ^ 32 = 1 := by rw [hkey']; norm_num
  have hkeys := indexKey_encodeFile hmod (by norm_num) []
  have hkeys' := indexKey_encodeFile hmod' (by norm_num) []
  have hsize : entrySize key' 0 = entrySize key 0 := by rw [entrySize, entrySize, hkey, hkey']
  have hsmall : 2 * entrySize key 0 < 2 ^ 64 := by rw [entrySize, hkey]; norm_num
  rw [reopen_empty]
  dsimp only
  rw [hrun, hdisk, reopen]
  refine ⟨?_, (sizes_stamps _ _).trans ?_⟩
  · simp [scanFile, isKvc_pathFor, FileSystem.faultless, hkeys, hkeys', hsize]
    omega
  · simp [scanFile, isKvc_pathFor, FileSystem.faultless, hkeys, hkeys', htake, sizes, hsize]

/-- Two keys of 4 GiB and one byte that differ in the last byte only: with the directory opened
again the total is not the sum of the sizes. -/
theorem long_keys_counted_twice :
    let key (last : UInt8) : Bytes := List.replicate (2 ^ 32) 0 ++ [last]
    let ops : List StoreOp := [.put (key 0) [], .put (key 1) [], .reopen 0]
    let s := (reopen .faultless 0 {}).run .faultless ops
    s.totalBytes ≠ sizes s.entries := by
  intro key ops s
  have hlength : ∀ last, (key last).length = 2 ^ 32 + 1 := fun last => by
    rw [List.length_append, List.length_replicate, List.length_singleton]
  have htake : ∀ last, (key last).take 1 = (List.replicate (2 ^ 32) (0 : UInt8)).take 1 :=
    fun last => List.take_append_of_le_length (by rw [List.length_replicate]; norm_num)
  have hpaths : pathFor (key 0) ≠ pathFor (key 1) := by
    rw [ne_eq, pathFor_eq_iff]
    exact fun heq => absurd (checksum_byte_inj heq) (by decide)
  obtain ⟨htotal, hsizes⟩ := counted_twice (hlength 0) (hlength 1)
    ((htake 0).trans (htake 1).symm) hpaths
  have hpos : 0 < entrySize (key 0) 0 := by rw [entrySize]; omega
  have hdifferent : s.totalBytes = 2 * entrySize (key 0) 0 ∧
      sizes s.entries = entrySize (key 0) 0 := ⟨htotal, hsizes⟩
  rw [hdifferent.1, hdifferent.2]
  omega

end DiskStore

end Reame.Cache
