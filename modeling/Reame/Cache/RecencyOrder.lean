import Reame.Cache.Restart

/-!
# The order of use after a restart

The order of use is in memory; a new store takes the modification times of the files for
it.  They say when an entry was written and nothing of its later use: `get` stamps the
entry and does not touch the file.

So a new store evicts what the old one would have evicted exactly if the entries were
used last in the order in which their files were written, each has its file, and the
constructor takes the key (`WrittenInOrder`, `lru_order_survives_iff`).  A single `get` of
an older entry is enough for the wrong one to go (`get_forgotten`).  In a budget of less
than five bytes there is room for one key only, and no order.
-/

namespace Reame.Cache

open Lru

namespace DiskStore

variable (fs : FileSystem)

/-- The keys that each of a sequence of puts evicts. -/
def evictionLog (s : DiskStore) : List (Bytes × Bytes) → List (List Bytes)
  | [] => []
  | (key, data) :: puts => s.evictions key data :: evictionLog (s.put fs key data).2 puts

/-- Whatever is put later, a new store on the directory evicts what this one would. -/
def SameEvictions (s : DiskStore) : Prop :=
  ∀ puts, (reopen fs s.maxBytes s.disk).evictionLog fs puts = s.evictionLog fs puts

/-- Every entry has a key that the constructor takes and its own file, and the files were written
in the order in which the entries were used last. -/
structure WrittenInOrder (s : DiskStore) : Prop where
  own : ∀ item ∈ s.entries, item.1.length ≤ 4096 ∧
    ∃ file, (pathFor item.1, file) ∈ s.disk.files ∧ storedKey file.content = some item.1
  order : ∀ item ∈ s.entries, ∀ item' ∈ s.entries, item.2.recency < item'.2.recency →
    ∀ file file', (pathFor item.1, file) ∈ s.disk.files →
      (pathFor item'.1, file') ∈ s.disk.files → file.mtime < file'.mtime

/-- The file of one key is not newer than that of the other. -/
def NotNewer (s : DiskStore) (key key' : Bytes) : Prop :=
  ∀ file file', (pathFor key, file) ∈ s.disk.files → (pathFor key', file') ∈ s.disk.files →
    file.mtime ≤ file'.mtime

variable {fs} {s t : DiskStore}

/-! ## Evictions and the queue -/

theorem evictions_eq (hs : Accounted s) (key data : Bytes) :
    s.evictions key data =
      if s.maxBytes = 0 ∨ s.maxBytes < entrySize key data.length then []
      else Queue.dropped (overfull s.maxBytes (entrySize key data.length))
        (s.queue.filter (·.1 ≠ key)) := by
  rw [evictions]
  by_cases hnone : s.maxBytes = 0 ∨ s.maxBytes < entrySize key data.length
  · rw [if_pos hnone, if_pos (by rwa [maxBytes_remove])]
  · have hmax : (s.remove key).2.maxBytes ≠ 0 := by
      rw [maxBytes_remove]
      exact fun hzero => hnone (.inl hzero)
    obtain ⟨-, -, hdropped, -⟩ := evictLoop_spec (hs.remove key) hmax
      (entrySize key data.length) le_rfl
    rw [if_neg hnone, if_neg (by rwa [maxBytes_remove]), hdropped, maxBytes_remove,
      queue_remove hs]

/-- Only what is in the index is evicted. -/
theorem contains_of_evictions {key data other : Bytes} (hmem : other ∈ s.evictions key data) :
    s.contains other = true := by
  have hloop : ∀ (incoming fuel : ℕ) (s : DiskStore), other ∈ evictedKeys incoming fuel s →
      s.contains other = true := by
    intro incoming fuel
    induction fuel with
    | zero => nofun
    | succ fuel ih =>
        intro s hmem
        rw [evictedKeys] at hmem
        split at hmem
        · cases hmem
        · rename_i first hlru
          split at hmem
          · rcases List.mem_cons.mp hmem with rfl | hrest
            · obtain ⟨item, hitem, rfl⟩ := Option.map_eq_some_iff.mp hlru
              exact contains_iff.mpr (List.mem_map.mpr ⟨item, List.argmin_mem hitem, rfl⟩)
            · exact (contains_remove.mp (ih _ hrest)).2
          · cases hmem
  rw [evictions] at hmem
  split at hmem
  · cases hmem
  · exact (contains_remove.mp (hloop _ _ _ hmem)).2

/-- The queue and the budget decide what is evicted, now and later. -/
theorem evictionLog_congr (hwrite : ∀ access, fs.writeFails access = false) (hs : Accounted s)
    (ht : Accounted t) (hmax : s.maxBytes = t.maxBytes) (hqueue : s.queue = t.queue)
    (puts : List (Bytes × Bytes)) : s.evictionLog fs puts = t.evictionLog fs puts := by
  induction puts generalizing s t with
  | nil => rfl
  | cons first puts ih =>
      obtain ⟨key, data⟩ := first
      obtain ⟨hsput, hsqueue, hsmax⟩ := put_spec fs hs key data
      obtain ⟨htput, htqueue, htmax⟩ := put_spec fs ht key data
      have hafter : (s.put fs key data).2.queue = (t.put fs key data).2.queue := by
        by_cases hlarge : s.maxBytes ≠ 0 ∧ s.maxBytes < entrySize key data.length
        · rw [put_refused fs hlarge, put_refused fs (hmax ▸ hlarge)]
          exact hqueue
        · have hlarge' := hlarge
          rw [hmax] at hlarge'
          rw [hsqueue hlarge, htqueue hlarge', put_ok hwrite hlarge, put_ok hwrite hlarge', hmax,
            hqueue]
      rw [evictionLog, evictionLog, evictions_eq hs, evictions_eq ht, hmax, hqueue,
        ih hsput htput (by rw [hsmax, htmax, hmax]) hafter]

/-! ## Files and their entries -/

/-- Every file belongs to an entry, states its size and has its own modification time; the sizes
are within the budget. -/
structure Filed (fs : FileSystem) (s : DiskStore) : Prop where
  accounted : s.Accounted
  names : (s.disk.files.map Prod.fst).Nodup
  files : ∀ file ∈ s.disk.files, ∃ item ∈ s.entries, file.1 = pathFor item.1 ∧
    ∃ data, file.2.content = encodeFile item.1 data ∧ item.2.size = entrySize item.1 data.length
  paths : ∀ item ∈ s.entries, item.2.path = pathFor item.1
  times : (s.disk.files.map (·.2.mtime)).Nodup
  past : ∀ file ∈ s.disk.files, ∃ access < s.disk.accesses, file.2.mtime = fs.mtime access
  sized : ∀ item ∈ s.entries, 4 + item.1.length ≤ item.2.size ∧
    (s.maxBytes ≠ 0 → item.2.size ≤ s.maxBytes)
  budget : s.maxBytes ≠ 0 → s.maxBytes < 2 ^ 63 → sizes s.entries ≤ s.maxBytes

theorem Filed.remove (hs : Filed fs s) (key : Bytes) : Filed fs (s.remove key).2 := by
  cases hlookup : s.entries.lookup key with
  | none =>
      rw [DiskStore.remove, hlookup]
      exact hs
  | some e =>
      have hpath := hs.paths _ (mem_of_lookup hlookup)
      have hremove : (s.remove key).2 = { s with
          disk := s.disk.remove (pathFor key)
          totalBytes := (s.totalBytes + (2 ^ 64 - e.size % 2 ^ 64)) % 2 ^ 64
          entries := s.entries.filter (·.1 ≠ key) } := by
        rw [DiskStore.remove, hlookup, ← hpath]
      have haccounted := hs.accounted.remove key
      rw [hremove] at haccounted ⊢
      refine ⟨haccounted, ?_, fun file hfile => ?_, fun item hitem => ?_, ?_, fun file hfile => ?_,
        fun item hitem => ?_, fun hmax hlt => ?_⟩
      · exact hs.names.sublist (List.filter_sublist.map _)
      · obtain ⟨hmem, hname⟩ := List.mem_filter.mp hfile
        obtain ⟨item, hitem, howner, hcontent⟩ := hs.files file hmem
        refine ⟨item, List.mem_filter.mpr ⟨hitem, ?_⟩, howner, hcontent⟩
        rw [decide_eq_true_eq]
        rintro rfl
        simp [howner] at hname
      · exact hs.paths item (List.mem_filter.mp hitem).1
      · exact hs.times.sublist (List.filter_sublist.map _)
      · exact hs.past file (List.mem_filter.mp hfile).1
      · exact hs.sized item (List.mem_filter.mp hitem).1
      · exact (sizes_le_of_sublist List.filter_sublist).trans (hs.budget hmax hlt)

theorem Filed.cleared (hs : Filed fs s) (key : Bytes) (incoming : ℕ) :
    Filed fs (s.cleared key incoming) := by
  have hremove : ∀ s key, Filed fs s → Filed fs (s.remove key).2 :=
    fun _ other hs => hs.remove other
  exact evict_induction hremove (hremove s key hs) incoming

/-- Within a budget below `2 ^ 63` nothing overflows, and room is made for the new entry. -/
theorem cleared_fits (hs : Accounted s) (hmax : s.maxBytes ≠ 0) (hlt : s.maxBytes < 2 ^ 63)
    (hsizes : sizes s.entries ≤ s.maxBytes) {key : Bytes} {incoming : ℕ}
    (hsmall : ¬ (s.maxBytes ≠ 0 ∧ s.maxBytes < incoming)) :
    sizes (s.cleared key incoming).entries + incoming ≤ s.maxBytes := by
  have hincoming : incoming ≤ s.maxBytes := not_lt.mp fun hlarge => hsmall ⟨hmax, hlarge⟩
  obtain ⟨-, hqueue, -⟩ := cleared_spec hs key incoming
  obtain ⟨n, hroom, -, -, henough⟩ := Queue.makeRoom_spec (overfull s.maxBytes incoming)
    (s.queue.filter (·.1 ≠ key))
  have hdrop := Queue.weight_sublist (((s.queue.filter (·.1 ≠ key)).drop_sublist n).trans
    List.filter_sublist)
  rw [weight_queue] at hdrop
  have hzero : overfull s.maxBytes incoming 0 = false := by
    have hmod : (0 + incoming) % 2 ^ 64 = incoming := by omega
    rw [overfull, hmod, decide_eq_false_iff_not]
    exact hsmall
  have hfull := henough hzero
  have hmod : (Queue.weight ((s.queue.filter (·.1 ≠ key)).drop n) + incoming) % 2 ^ 64 =
      Queue.weight ((s.queue.filter (·.1 ≠ key)).drop n) + incoming :=
    Nat.mod_eq_of_lt (by omega)
  rw [overfull, hmod, decide_eq_false_iff_not] at hfull
  rw [← weight_queue, hqueue, hroom]
  exact not_lt.mp fun hover => hfull ⟨hmax, hover⟩

/-- A file may be gone, and the directory accessed once more. -/
theorem Filed.erased (hs : Filed fs s) (path : Bytes) :
    Filed fs { s with disk := erased s.disk path } := by
  refine ⟨hs.accounted.ofDisk _, ?_, fun file hfile => ?_, hs.paths, ?_, fun file hfile => ?_,
    hs.sized, hs.budget⟩
  · exact hs.names.sublist (List.filter_sublist.map _)
  · exact hs.files file (List.mem_filter.mp hfile).1
  · exact hs.times.sublist (List.filter_sublist.map _)
  · obtain ⟨access, hlt, htime⟩ := hs.past file (List.mem_filter.mp hfile).1
    exact ⟨access, hlt.trans (Nat.lt_succ_self _), htime⟩

theorem Filed.written (hmtime : StrictMono fs.mtime) (hs : Filed fs s) {key data : Bytes}
    (hnew : ∀ item ∈ s.entries, item.1 ≠ key)
    (hsmall : ¬ (s.maxBytes ≠ 0 ∧ s.maxBytes < entrySize key data.length))
    (hfits : s.maxBytes ≠ 0 → s.maxBytes < 2 ^ 63 →
      sizes s.entries + entrySize key data.length ≤ s.maxBytes) :
    Filed fs (s.written key (entrySize key data.length) { DiskStore.erased s.disk (pathFor key) with
      files := (pathFor key, ⟨encodeFile key data, fs.mtime s.disk.accesses⟩) ::
        (DiskStore.erased s.disk (pathFor key)).files }) := by
  have hothers := hs.erased (pathFor key)
  have hfilter : s.entries.filter (·.1 ≠ key) = s.entries :=
    List.filter_eq_self.mpr fun item hitem => by simpa using hnew item hitem
  refine ⟨(written_spec hs.accounted hnew _ _).1, ?_, fun file hfile => ?_, fun item hitem => ?_,
    ?_, fun file hfile => ?_, fun item hitem => ?_, fun hmax hlt => ?_⟩
  · refine List.nodup_cons.mpr ⟨fun hmem => ?_, hothers.names⟩
    obtain ⟨file, hfile, heq⟩ := List.mem_map.mp hmem
    have hne : file.1 ≠ pathFor key := by simpa using (List.mem_filter.mp hfile).2
    exact hne heq
  · rw [DiskStore.written, hfilter]
    rcases List.mem_cons.mp hfile with rfl | hold
    · exact ⟨_, List.mem_cons_self .., rfl, data, rfl, rfl⟩
    · obtain ⟨item, hitem, hitem'⟩ := hothers.files file hold
      exact ⟨item, List.mem_cons_of_mem _ hitem, hitem'⟩
  · rw [DiskStore.written, hfilter] at hitem
    rcases List.mem_cons.mp hitem with rfl | hold
    · rfl
    · exact hs.paths item hold
  · refine List.nodup_cons.mpr ⟨fun hmem => ?_, hothers.times⟩
    obtain ⟨file, hfile, heq⟩ := List.mem_map.mp hmem
    obtain ⟨access, hlt, htime⟩ := hs.past file (List.mem_filter.mp hfile).1
    have hbefore := hmtime hlt
    rw [← htime, heq] at hbefore
    exact lt_irrefl _ hbefore
  · rcases List.mem_cons.mp hfile with rfl | hold
    · exact ⟨s.disk.accesses, Nat.lt_succ_self _, rfl⟩
    · exact hothers.past file hold
  · rw [DiskStore.written, hfilter] at hitem
    rcases List.mem_cons.mp hitem with rfl | hold
    · refine ⟨by simp [entrySize], fun hmax => ?_⟩
      exact not_lt.mp fun hlarge => hsmall ⟨hmax, hlarge⟩
    · exact hs.sized item hold
  · rw [DiskStore.written, hfilter, sizes, List.map_cons, List.sum_cons, Nat.add_comm]
    exact hfits hmax hlt

theorem Filed.put (hmtime : StrictMono fs.mtime) (hnoticed : fs.Notices s.disk.accesses)
    (hs : Filed fs s) (key data : Bytes) : Filed fs (s.put fs key data).2 := by
  have hcleared := hs.cleared key (entrySize key data.length)
  have hmax := (cleared_spec hs.accounted key (entrySize key data.length)).2.2
  have haccesses := accesses_cleared s key (entrySize key data.length)
  rcases put_cases_noticed hnoticed key data with
    ⟨-, hput⟩ | ⟨-, -, hput⟩ | ⟨hsmall, -, hput⟩ <;> rw [hput]
  · exact hs
  · exact hcleared.erased _
  · rw [← haccesses]
    refine hcleared.written hmtime (cleared_new s key _) (by rwa [hmax]) fun hzero hlt => ?_
    rw [hmax] at hzero hlt ⊢
    exact cleared_fits hs.accounted hzero hlt (hs.budget hzero hlt) hsmall

theorem Filed.get (hs : Filed fs s) (key : Bytes) : Filed fs (s.get fs key).2 := by
  have haccessed : Filed fs s.accessed := by
    refine ⟨hs.accounted.ofDisk _, hs.names, hs.files, hs.paths, hs.times, fun file hfile => ?_,
      hs.sized, hs.budget⟩
    obtain ⟨access, hlt, htime⟩ := hs.past file hfile
    exact ⟨access, hlt.trans (Nat.lt_succ_self _), htime⟩
  rcases get_cases fs s key with ⟨-, hget⟩ | ⟨e, hlookup, ⟨-, hget⟩ | ⟨payload, -, hget⟩⟩ <;>
    rw [hget]
  · exact hs
  · exact haccessed.remove key
  · refine ⟨(stamped_spec hs.accounted hlookup _).1, hs.names, fun file hfile => ?_,
      fun item hitem => ?_, hs.times, haccessed.past, fun item hitem => ?_, fun hmax hlt => ?_⟩
    · obtain ⟨item, hitem, hpath, data, hcontent, hsize⟩ := hs.files file hfile
      refine ⟨_, List.mem_map_of_mem hitem, ?_⟩
      split
      · exact ⟨hpath, data, hcontent, hsize⟩
      · exact ⟨hpath, data, hcontent, hsize⟩
    · obtain ⟨before, hbefore, hkey, hpath, -⟩ := mem_stamp hitem
      rw [← hkey, ← hpath]
      exact hs.paths before hbefore
    · obtain ⟨before, hbefore, hkey, -, hsize⟩ := mem_stamp hitem
      rw [← hkey, ← hsize]
      exact hs.sized before hbefore
    · have hsizes := (get_spec fs hs.accounted key).2.1
      rw [hget] at hsizes
      exact hsizes.trans (hs.budget hmax hlt)

/-- What a run without a restart preserves. -/
theorem Filed.apply (hmtime : StrictMono fs.mtime) (hnoticed : ∀ access, fs.Notices access)
    (hs : Filed fs s) {op : StoreOp} (hop : ∀ maxBytes, op ≠ .reopen maxBytes) :
    Filed fs (s.apply fs op) := by
  cases op with
  | put key data => exact hs.put hmtime (hnoticed _) key data
  | get key => exact hs.get key
  | contains key => exact hs
  | remove key => exact hs.remove key
  | clear => exact clear_induction (fun _ key hs => Filed.remove hs key) hs
  | reopen maxBytes => exact absurd rfl (hop maxBytes)

/-! ## What the new store makes of the directory -/

/-- With short keys the directory is one that can be read back. -/
theorem Filed.sound (hs : Filed fs s)
    (hshort : ∀ key, s.contains key = true → key.length ≤ 4096) :
    s.disk.Sound fun _ _ => True := by
  refine ⟨hs.names, fun file hfile => ?_⟩
  obtain ⟨item, hitem, hname, data, hcontent, -⟩ := hs.files file hfile
  have hlength := hshort item.1 (contains_iff.mpr (List.mem_map_of_mem hitem))
  exact ⟨item.1, data, hname, hcontent, by omega, trivial⟩

theorem Filed.nodup_seen (hs : Filed fs s)
    (hshort : ∀ key, s.contains key = true → key.length ≤ 4096) :
    ((seen fs s.disk.accesses s.disk.files).map Prod.snd).Nodup :=
  DiskStore.nodup_seen (hs.sound hshort).named _

/-- A file that is read back is that of an entry with the same key. -/
theorem Filed.owner (hs : Filed fs s)
    (hshort : ∀ key, s.contains key = true → key.length ≤ 4096) {file : Bytes × File} {key : Bytes}
    (hfile : file ∈ s.disk.files) (hstored : storedKey file.2.content = some key) :
    file.1 = pathFor key ∧ indexKey file.2.content = some key ∧
      ∃ e, (key, e) ∈ s.entries ∧ e.size = file.2.content.length := by
  obtain ⟨item, hitem, hname, data, hcontent, hsize⟩ := hs.files file hfile
  have hlength := hshort item.1 (contains_iff.mpr (List.mem_map_of_mem hitem))
  rw [hcontent, storedKey_encodeFile (by omega), Option.some.injEq] at hstored
  subst hstored
  refine ⟨hname, ?_, item.2, hitem, by rw [hsize, hcontent, length_encodeFile]⟩
  rw [hcontent]
  exact indexKey_of_short hlength data

theorem earlier_iff {a b : ℕ × Bytes} :
    earlier a b = true ↔ a.1 < b.1 ∨ a.1 = b.1 ∧ a.2 ≤ b.2 := by
  simp [earlier]

theorem earlier_trans (a b c : ℕ × Bytes) (hab : earlier a b = true) (hbc : earlier b c = true) :
    earlier a c = true := by
  rw [earlier_iff] at hab hbc ⊢
  rcases hab with hab | ⟨hab, hkeys⟩ <;> rcases hbc with hbc | ⟨hbc, hkeys'⟩
  · exact .inl (hab.trans hbc)
  · exact .inl (hbc ▸ hab)
  · exact .inl (hab ▸ hbc)
  · exact .inr ⟨hab.trans hbc, List.le_trans hkeys hkeys'⟩

theorem earlier_total (a b : ℕ × Bytes) : (earlier a b || earlier b a) = true := by
  rw [Bool.or_eq_true, earlier_iff, earlier_iff]
  rcases lt_trichotomy a.1 b.1 with hlt | heq | hgt
  · exact .inl (.inl hlt)
  · exact (List.le_total a.2 b.2).imp (fun hle => .inr ⟨heq, hle⟩) fun hle => .inr ⟨heq.symm, hle⟩
  · exact .inr (.inl hgt)

/-- The new store lists the keys by the times of their files. -/
theorem Filed.pairwise_readOrder (hs : Filed fs s)
    (hshort : ∀ key, s.contains key = true → key.length ≤ 4096) :
    (readOrder fs s.disk).Pairwise s.NotNewer := by
  have hsorted := List.pairwise_mergeSort earlier_trans earlier_total
    ((seen fs s.disk.accesses s.disk.files).map fun x => (x.1.2.mtime, x.2))
  have htime : ∀ pair ∈ ((seen fs s.disk.accesses s.disk.files).map
      fun x => (x.1.2.mtime, x.2)).mergeSort earlier,
      ∀ file, (pathFor pair.2, file) ∈ s.disk.files → file.mtime = pair.1 := by
    intro pair hpair file hfile
    obtain ⟨x, hx, rfl⟩ := List.mem_map.mp (List.mem_mergeSort.mp hpair)
    obtain ⟨hmem, -, hindex⟩ := mem_seen hx
    have hname := (hs.owner hshort hmem (storedKey_of_indexKey hindex).1).1
    have hsame : (pathFor x.2, file) = x.1 := List.inj_on_of_nodup_map hs.names hfile hmem hname.symm
    rw [← hsame]
  rw [readOrder, List.pairwise_map]
  refine hsorted.imp_of_mem fun {a b} ha hb hab file file' hfile hfile' => ?_
  rw [htime a ha file hfile, htime b hb file' hfile']
  rcases earlier_iff.mp hab with hlt | ⟨heq, -⟩
  · exact hlt.le
  · exact heq.le

/-- Without failing reads the new store lists the keys that have their own file. -/
theorem Filed.mem_readOrder (hs : Filed fs s) (hread : ∀ access, fs.readFails access = false)
    (hshort : ∀ key, s.contains key = true → key.length ≤ 4096) {key : Bytes} :
    key ∈ readOrder fs s.disk ↔
      ∃ file, (pathFor key, file) ∈ s.disk.files ∧ storedKey file.content = some key := by
  rw [(readOrder_perm fs s.disk).mem_iff, List.mem_map]
  constructor
  · rintro ⟨x, hx, rfl⟩
    obtain ⟨hmem, -, hindex⟩ := mem_seen hx
    have hstored := (storedKey_of_indexKey hindex).1
    have hname := (hs.owner hshort hmem hstored).1
    exact ⟨x.1.2, hname ▸ hmem, hstored⟩
  · rintro ⟨file, hfile, hstored⟩
    have hindex := (hs.owner hshort hfile hstored).2.1
    exact ⟨_, mem_seen_of_read (fun i _ _ => hread i) hfile (isKvc_pathFor key) hindex, rfl⟩

/-- Files with the same time are the same file, so their keys are the same. -/
theorem Filed.eq_of_times (hs : Filed fs s) {key key' : Bytes} {file file' : File}
    (hfile : (pathFor key, file) ∈ s.disk.files) (hstored : storedKey file.content = some key)
    (hfile' : (pathFor key', file') ∈ s.disk.files) (hstored' : storedKey file'.content = some key')
    (htime : file.mtime = file'.mtime) : key = key' := by
  have hsame := List.inj_on_of_nodup_map hs.times hfile hfile' htime
  obtain ⟨-, rfl⟩ := Prod.mk.inj hsame
  exact Option.some.inj (hstored.symm.trans hstored')

theorem Filed.file_unique (hs : Filed fs s) {path : Bytes} {file file' : File}
    (hfile : (path, file) ∈ s.disk.files) (hfile' : (path, file') ∈ s.disk.files) :
    file = file' :=
  (Prod.mk.inj (List.inj_on_of_nodup_map hs.names hfile hfile' rfl)).2

theorem Filed.nodup_readOrder (hs : Filed fs s)
    (hshort : ∀ key, s.contains key = true → key.length ≤ 4096) :
    (readOrder fs s.disk).Nodup :=
  (readOrder_perm fs s.disk).nodup_iff.mpr (hs.nodup_seen hshort)

/-- The entries are in the order of their files exactly if the new store lists their keys in the
order of use. -/
theorem Filed.queue_eq_of_order (hs : Filed fs s) (hread : ∀ access, fs.readFails access = false)
    (horder : s.WrittenInOrder) : s.queue.map Prod.fst = readOrder fs s.disk := by
  have hshort : ∀ key, s.contains key = true → key.length ≤ 4096 := by
    intro key hkey
    obtain ⟨item, hitem, rfl⟩ := List.mem_map.mp (contains_iff.mp hkey)
    exact (horder.own item hitem).1
  have hnodup : (s.queue.map Prod.fst).Nodup := (keys_queue_perm s).nodup_iff.mpr hs.accounted.keys
  have hperm : (s.queue.map Prod.fst).Perm (readOrder fs s.disk) := by
    refine (List.perm_ext_iff_of_nodup hnodup (hs.nodup_readOrder hshort)).mpr fun key => ?_
    rw [mem_keys_queue, hs.mem_readOrder hread hshort]
    constructor
    · intro hkey
      obtain ⟨item, hitem, rfl⟩ := List.mem_map.mp (contains_iff.mp hkey)
      exact (horder.own item hitem).2
    · rintro ⟨file, hfile, hstored⟩
      obtain ⟨-, -, e, he, -⟩ := hs.owner hshort hfile hstored
      exact contains_iff.mpr (List.mem_map_of_mem he)
  have hsorted : (s.queue.map Prod.fst).Pairwise s.NotNewer := by
    -- Stamps are distinct, so what comes later in the queue was used later.
    have hstamps : ((byStamp (fun item => item.2.recency) s.entries).map (·.2.recency)).Nodup :=
      ((byStamp_perm _ s.entries).map _).nodup_iff.mpr hs.accounted.stamps
    rw [List.Nodup, List.pairwise_map] at hstamps
    have hbefore := (pairwise_byStamp (fun item => item.2.recency) s.entries).and hstamps
    rw [queue, List.map_map, List.pairwise_map]
    refine hbefore.imp_of_mem fun {a b} ha hb hab file file' hfile hfile' => ?_
    exact (horder.order a ((mem_byStamp _).mp ha) b ((mem_byStamp _).mp hb)
      (lt_of_le_of_ne hab.1 hab.2) file file' hfile hfile').le
  refine List.Perm.eq_of_pairwise (fun a b ha hb hab hba => ?_) hsorted
    (hs.pairwise_readOrder hshort) hperm
  obtain ⟨file, hfile, hstored⟩ := (hs.mem_readOrder hread hshort).mp (hperm.subset ha)
  obtain ⟨file', hfile', hstored'⟩ := (hs.mem_readOrder hread hshort).mp hb
  exact hs.eq_of_times hfile hstored hfile' hstored'
    (le_antisymm (hab file file' hfile hfile') (hba file' file hfile' hfile))

theorem Filed.order_of_queue_eq (hs : Filed fs s) (hread : ∀ access, fs.readFails access = false)
    (hshort : ∀ key, s.contains key = true → key.length ≤ 4096)
    (hqueue : s.queue.map Prod.fst = readOrder fs s.disk) : s.WrittenInOrder := by
  have hown : ∀ item ∈ s.entries, ∃ file, (pathFor item.1, file) ∈ s.disk.files ∧
      storedKey file.content = some item.1 := by
    intro item hitem
    refine (hs.mem_readOrder hread hshort).mp ?_
    rw [← hqueue, mem_keys_queue]
    exact contains_iff.mpr (List.mem_map_of_mem hitem)
  refine ⟨fun item hitem => ⟨hshort _ (contains_iff.mpr (List.mem_map_of_mem hitem)),
    hown item hitem⟩, fun item hitem item' hitem' hlt file file' hfile hfile' => ?_⟩
  have hsorted := hs.pairwise_readOrder hshort
  rw [← hqueue, queue, List.map_map, List.pairwise_map, List.pairwise_iff_getElem] at hsorted
  have hstamps := pairwise_byStamp (fun item => item.2.recency) s.entries
  rw [List.pairwise_iff_getElem] at hstamps
  obtain ⟨i, hi, rfl⟩ := List.mem_iff_getElem.mp
    ((mem_byStamp fun item => item.2.recency).mpr hitem)
  obtain ⟨j, hj, rfl⟩ := List.mem_iff_getElem.mp
    ((mem_byStamp fun item => item.2.recency).mpr hitem')
  have hij : i < j := by
    rcases lt_trichotomy i j with hij | rfl | hji
    · exact hij
    · exact absurd hlt (lt_irrefl _)
    · exact absurd hlt (hstamps j i hj hi hji).not_gt
  refine lt_of_le_of_ne (hsorted i j hi hj hij file file' hfile hfile') fun htime => ?_
  obtain ⟨own, hownFile, hstored⟩ := hown _ hitem
  obtain ⟨own', hownFile', hstored'⟩ := hown _ hitem'
  rw [hs.file_unique hownFile hfile] at hstored
  rw [hs.file_unique hownFile' hfile'] at hstored'
  have hkeys := hs.eq_of_times hfile hstored hfile' hstored' htime
  have hsame := List.inj_on_of_nodup_map hs.accounted.keys hitem hitem' hkeys
  rw [hsame] at hlt
  exact lt_irrefl _ hlt

/-! ## The same evictions -/

/-- The new store has the same queue then. -/
theorem Filed.queue_reopen (hs : Filed fs s) (hread : ∀ access, fs.readFails access = false)
    (horder : s.WrittenInOrder) :
    Accounted (reopen fs s.maxBytes s.disk) ∧ (reopen fs s.maxBytes s.disk).queue = s.queue := by
  have hshort : ∀ key, s.contains key = true → key.length ≤ 4096 := by
    intro key hkey
    obtain ⟨item, hitem, rfl⟩ := List.mem_map.mp (contains_iff.mp hkey)
    exact (horder.own item hitem).1
  have hseen := hs.nodup_seen hshort
  obtain ⟨hnew, hkeys⟩ := reopen_spec fs s.maxBytes hseen
  refine ⟨hnew, Queue.eq_of_keys (hkeys.trans (hs.queue_eq_of_order hread horder).symm) ?_⟩
  rintro ⟨key, size⟩ hitem ⟨key', size'⟩ hitem' (rfl : key = key')
  obtain ⟨e, he, rfl⟩ := mem_queue.mp hitem
  obtain ⟨e', he', rfl⟩ := mem_queue.mp hitem'
  rw [(entries_reopen fs s.maxBytes hseen).1] at he
  obtain ⟨x, hx, heq⟩ := List.mem_map.mp he
  obtain ⟨rfl, rfl⟩ := Prod.mk.inj heq
  obtain ⟨hfile, -, hindex⟩ := mem_seen hx
  obtain ⟨-, -, owner, howner, hsize⟩ := hs.owner hshort hfile (storedKey_of_indexKey hindex).1
  have hsame := List.inj_on_of_nodup_map hs.accounted.keys howner he' rfl
  rw [← (Prod.mk.inj hsame).2]
  exact hsize.symm

/-- `put` keeps the budget and adds no other key. -/
theorem contains_of_put (fs : FileSystem) (s : DiskStore) (key data : Bytes) :
    (s.put fs key data).2.maxBytes = s.maxBytes ∧ ∀ other,
      (s.put fs key data).2.contains other = true → s.contains other = true ∨
        other = key ∧ ¬ (s.maxBytes ≠ 0 ∧ s.maxBytes < entrySize key data.length) := by
  have hremove : ∀ (after : DiskStore) other, after.maxBytes = s.maxBytes →
      (after.remove other).2.maxBytes = s.maxBytes :=
    fun after other hafter => (maxBytes_remove after other).trans hafter
  have hmax : (s.cleared key (entrySize key data.length)).maxBytes = s.maxBytes :=
    evict_induction hremove (maxBytes_remove s key) _
  have hcleared : ∀ other, (s.cleared key (entrySize key data.length)).contains other = true →
      s.contains other = true := by
    intro other
    have hgone : ∀ (after : DiskStore) key, (after.contains other = true → s.contains other = true) →
        (after.remove key).2.contains other = true → s.contains other = true :=
      fun after key hafter hother => hafter (contains_remove.mp hother).2
    exact evict_induction hgone (fun hother => (contains_remove.mp hother).2) _
  rcases put_cases fs s key data with
    ⟨-, hput⟩ | ⟨-, -, hput⟩ | ⟨hsmall, _, -, hput⟩ <;> rw [hput]
  · exact ⟨rfl, fun other hother => .inl hother⟩
  · exact ⟨hmax, fun other hother => .inl (hcleared other hother)⟩
  · refine ⟨hmax, fun other hother => ?_⟩
    rw [contains_iff, written, List.map_cons, List.mem_cons] at hother
    rcases hother with rfl | hold
    · exact .inr ⟨rfl, hsmall⟩
    · obtain ⟨item, hitem, rfl⟩ := List.mem_map.mp hold
      exact .inl (hcleared _ (contains_iff.mpr (List.mem_map_of_mem (List.mem_filter.mp hitem).1)))

theorem eq_nil_of_small {maxBytes : ℕ} (hmax : maxBytes < 5) {key : Bytes} {payload : ℕ}
    (hsmall : ¬ maxBytes < entrySize key payload) : key = [] := by
  rw [entrySize] at hsmall
  exact List.length_eq_zero_iff.mp (by omega)

/-- In a budget of less than five bytes there is room for the empty key only. -/
theorem evictionLog_of_small (hmax : s.maxBytes < 5)
    (hkeys : s.maxBytes ≠ 0 → ∀ other, s.contains other = true → other = [])
    (puts : List (Bytes × Bytes)) : s.evictionLog fs puts = puts.map fun _ => [] := by
  induction puts generalizing s with
  | nil => rfl
  | cons first puts ih =>
      obtain ⟨key, data⟩ := first
      obtain ⟨hsame, hadded⟩ := contains_of_put fs s key data
      have hnone : s.evictions key data = [] := by
        rw [evictions]
        split
        · rfl
        · rename_i hroom
          rw [maxBytes_remove, not_or] at hroom
          obtain rfl := eq_nil_of_small hmax hroom.2
          have hentries : (s.remove []).2.entries = [] := by
            rw [entries_remove, List.filter_eq_nil_iff]
            intro item hitem
            have hkey := hkeys hroom.1 item.1 (contains_iff.mpr (List.mem_map_of_mem hitem))
            simpa using hkey
          rw [hentries]
          rfl
      rw [evictionLog, hnone, List.map_cons]
      refine congrArg _ (ih (hsame ▸ hmax) fun hzero other hother => ?_)
      rw [hsame] at hzero
      rcases hadded other hother with hold | ⟨rfl, hsmall⟩
      · exact hkeys hzero other hold
      · exact eq_nil_of_small hmax fun hlarge => hsmall ⟨hzero, hlarge⟩

/-- What a new store knows, the old one knew. -/
theorem Filed.contains_of_reopen (hs : Filed fs s)
    (hshort : ∀ key, s.contains key = true → key.length ≤ 4096) {key : Bytes}
    (hkey : (reopen fs s.maxBytes s.disk).contains key = true) : s.contains key = true := by
  have hseen := hs.nodup_seen hshort
  rw [contains_iff, (entries_reopen fs s.maxBytes hseen).1, List.map_map, List.mem_map] at hkey
  obtain ⟨x, hx, rfl⟩ := hkey
  obtain ⟨hfile, -, hindex⟩ := mem_seen hx
  obtain ⟨-, -, e, he, -⟩ := hs.owner hshort hfile (storedKey_of_indexKey hindex).1
  exact contains_iff.mpr (List.mem_map.mpr ⟨_, he, rfl⟩)

/-- A key whose entry would fill the budget, and that is not in the index. -/
theorem Filed.exists_new (hs : Filed fs s) (hmax : 5 ≤ s.maxBytes) (hlt : s.maxBytes < 2 ^ 63) :
    ∃ key, s.contains key = false ∧ entrySize key 0 = s.maxBytes := by
  have hsize : ∀ b : UInt8, entrySize (List.replicate (s.maxBytes - 4) b) 0 = s.maxBytes := by
    intro b
    rw [entrySize, List.length_replicate]
    omega
  by_cases hfirst : s.contains (List.replicate (s.maxBytes - 4) 0) = false
  · exact ⟨_, hfirst, hsize 0⟩
  refine ⟨List.replicate (s.maxBytes - 4) 1, ?_, hsize 1⟩
  by_contra hsecond
  rw [Bool.not_eq_false] at hfirst hsecond
  -- Together the two entries are larger than the budget.
  obtain ⟨e, he⟩ := Option.isSome_iff_exists.mp hfirst
  obtain ⟨item, hitem, hkey⟩ := List.mem_map.mp (contains_iff.mp hsecond)
  have hne : item.1 ≠ List.replicate (s.maxBytes - 4) 0 := by
    rw [hkey]
    intro heq
    have hzero := List.eq_of_mem_replicate (heq ▸ List.mem_replicate.mpr ⟨by omega, rfl⟩ :
      (1 : UInt8) ∈ List.replicate (s.maxBytes - 4) 0)
    exact absurd hzero (by decide)
  have hsum := ((perm_filter hs.accounted.keys he).map fun item => item.2.size).sum_eq
  have hrest : item.2.size ≤ sizes (s.entries.filter (·.1 ≠ List.replicate (s.maxBytes - 4) 0)) :=
    List.single_le_sum (by simp) _
      (List.mem_map_of_mem (List.mem_filter.mpr ⟨hitem, by simpa using hne⟩))
  have hbudget := hs.budget (by omega) hlt
  have hlarge := (hs.sized _ (mem_of_lookup he)).1
  have hlarge' := (hs.sized _ hitem).1
  rw [hkey, List.length_replicate] at hlarge'
  rw [List.length_replicate] at hlarge
  rw [List.map_cons, List.sum_cons] at hsum
  rw [sizes] at hrest hbudget
  omega

theorem Filed.sameEvictions_of_order (hs : Filed fs s)
    (hread : ∀ access, fs.readFails access = false)
    (hwrite : ∀ access, fs.writeFails access = false)
    (horder : s.maxBytes < 5 ∨ s.WrittenInOrder) : s.SameEvictions fs := by
  intro puts
  rcases horder with hmax | horder
  · have hkeys : s.maxBytes ≠ 0 → ∀ key, s.contains key = true → key = [] := by
      intro hzero key hkey
      obtain ⟨item, hitem, rfl⟩ := List.mem_map.mp (contains_iff.mp hkey)
      obtain ⟨hlarge, hsmall⟩ := hs.sized item hitem
      have hsize := hsmall hzero
      exact List.length_eq_zero_iff.mp (by omega)
    have hnew : (reopen fs s.maxBytes s.disk).maxBytes ≠ 0 →
        ∀ key, (reopen fs s.maxBytes s.disk).contains key = true → key = [] := by
      intro hzero key hkey
      refine hkeys hzero key (hs.contains_of_reopen (fun key hkey => ?_) hkey)
      rw [hkeys hzero key hkey]
      exact Nat.zero_le _
    have hnewMax : (reopen fs s.maxBytes s.disk).maxBytes < 5 := hmax
    rw [evictionLog_of_small hmax hkeys, evictionLog_of_small hnewMax hnew]
  · obtain ⟨hnew, hqueue⟩ := hs.queue_reopen hread horder
    exact evictionLog_congr hwrite hnew hs.accounted rfl hqueue puts

/-- An entry as large as the budget drives out everything, and shows the order. -/
theorem Filed.order_of_sameEvictions (hs : Filed fs s)
    (hread : ∀ access, fs.readFails access = false) (hmax : 5 ≤ s.maxBytes)
    (hlt : s.maxBytes < 2 ^ 63) (hsame : s.SameEvictions fs) : s.WrittenInOrder := by
  obtain ⟨key, hnew, hsize⟩ := hs.exists_new hmax hlt
  have hlog : (reopen fs s.maxBytes s.disk).evictions key [] = s.evictions key [] :=
    (List.cons.inj (hsame [(key, [])])).1
  have hkey : ∀ item ∈ s.queue, item.1 ≠ key := by
    rintro item hitem rfl
    have hmem := mem_keys_queue.mp (List.mem_map_of_mem hitem)
    rw [hnew] at hmem
    cases hmem
  have hall : s.evictions key [] = s.queue.map Prod.fst := by
    rw [evictions_eq hs.accounted, List.length_nil, hsize, if_neg (by omega),
      List.filter_eq_self.mpr fun item hitem => by simpa using hkey item hitem]
    refine Queue.dropped_eq_keys _ (fun item hitem => ?_) fun total hpos hle => ?_
    · obtain ⟨e, he, heq⟩ := mem_queue.mp hitem
      have hlarge : 4 + item.1.length ≤ e.size := (hs.sized _ he).1
      rw [← heq]
      omega
    · have hbudget := hs.budget (by omega) hlt
      rw [weight_queue] at hle
      have hmod : (total + s.maxBytes) % 2 ^ 64 = total + s.maxBytes :=
        Nat.mod_eq_of_lt (by omega)
      rw [overfull, hmod, decide_eq_true_eq]
      omega
  rw [hall] at hlog
  have hshort : ∀ key, s.contains key = true → key.length ≤ 4096 := by
    intro other hother
    have hmem : other ∈ (reopen fs s.maxBytes s.disk).evictions key [] := by
      rw [hlog]
      exact mem_keys_queue.mpr hother
    exact length_of_contains_reopen (contains_of_evictions hmem)
  -- The new store evicts a front of its queue, and that is all it has.
  obtain ⟨haccounted, hqueue⟩ := reopen_spec fs s.maxBytes (hs.nodup_seen hshort)
  generalize hreopened : reopen fs s.maxBytes s.disk = new at hlog haccounted hqueue
  have hmaxNew : new.maxBytes = s.maxBytes := by rw [← hreopened]; rfl
  have hknown : ∀ other ∈ new.queue.map Prod.fst, other ∈ s.queue.map Prod.fst := by
    intro other hother
    rw [mem_keys_queue, ← hreopened] at hother
    exact mem_keys_queue.mpr (hs.contains_of_reopen hshort hother)
  have hfilter : new.queue.filter (·.1 ≠ key) = new.queue := by
    refine List.filter_eq_self.mpr fun item hitem => ?_
    obtain ⟨item', hitem', heq⟩ := List.mem_map.mp (hknown _ (List.mem_map_of_mem hitem))
    simpa [heq] using hkey item' hitem'
  obtain ⟨n, -, hdropped, -⟩ := Queue.makeRoom_spec (overfull s.maxBytes s.maxBytes) new.queue
  rw [evictions_eq haccounted, hmaxNew, List.length_nil, hsize, if_neg (by omega), hfilter,
    hdropped] at hlog
  have hnodup : (new.queue.map Prod.fst).Nodup :=
    (keys_queue_perm new).nodup_iff.mpr haccounted.keys
  have hlength := (hnodup.subperm hknown).length_le
  have hfront := congrArg List.length hlog
  rw [List.length_map, List.length_map] at hlength
  rw [List.length_map, List.length_map, List.length_take] at hfront
  have htake : new.queue.take n = new.queue := List.take_of_length_le (by omega)
  rw [htake, hqueue] at hlog
  exact hs.order_of_queue_eq hread hshort hlog.symm

/-! ## Runs -/

theorem filed_run (hmtime : StrictMono fs.mtime) (hnoticed : ∀ access, fs.Notices access)
    (hs : Filed fs s) {ops : List StoreOp} (hreopen : ∀ maxBytes, .reopen maxBytes ∉ ops) :
    Filed fs (s.run fs ops) := by
  induction ops generalizing s with
  | nil => exact hs
  | cons op ops ih =>
      refine ih (hs.apply hmtime hnoticed fun maxBytes heq => ?_) fun maxBytes hmem => ?_
      · exact hreopen maxBytes (heq ▸ List.mem_cons_self ..)
      · exact hreopen maxBytes (List.mem_cons_of_mem _ hmem)

theorem filed_empty (fs : FileSystem) (maxBytes : ℕ) : Filed fs (reopen fs maxBytes {}) := by
  refine ⟨(kept_empty fs maxBytes).accounted, ?_, ?_, ?_, ?_, ?_, ?_, fun _ _ => ?_⟩ <;>
    rw [reopen_empty]
  · exact List.nodup_nil
  · nofun
  · nofun
  · exact List.nodup_nil
  · nofun
  · nofun
  · exact Nat.zero_le _

/-- After any operations a new store evicts what the old one would, whatever is put then, exactly
if the entries were used last in the order of their files; or if the budget leaves no order. -/
theorem lru_order_survives_iff (fs : FileSystem) (hread : ∀ access, fs.readFails access = false)
    (hwrite : ∀ access, fs.writeFails access = false) (hmtime : StrictMono fs.mtime)
    (maxBytes : ℕ) (ops : List StoreOp) (hreopen : ∀ maxBytes, .reopen maxBytes ∉ ops) :
    let s := (reopen fs maxBytes {}).run fs ops
    (s.maxBytes < 5 ∨ s.WrittenInOrder → s.SameEvictions fs) ∧
      (s.maxBytes < 2 ^ 63 → s.SameEvictions fs → s.maxBytes < 5 ∨ s.WrittenInOrder) := by
  have hnoticed : ∀ access, fs.Notices access := fun access =>
    FileSystem.notices_of_succeeds (hwrite access)
  have hs := filed_run hmtime hnoticed (filed_empty fs maxBytes) hreopen
  refine ⟨hs.sameEvictions_of_order hread hwrite, fun hlt hsame => ?_⟩
  refine or_iff_not_imp_left.mpr fun hmax => ?_
  exact hs.order_of_sameEvictions hread (not_lt.mp hmax) hlt hsame

/-- Three entries, none of them read again. -/
theorem lru_order_survives_small :
    let ops : List StoreOp := [.put (ascii "a") (ascii "1"), .put (ascii "b") (ascii "2"),
      .get (ascii "b"), .put (ascii "c") (ascii "3")]
    let s := (reopen .faultless 18 {}).run .faultless ops
    (s.maxBytes < 5 ∨ s.WrittenInOrder → s.SameEvictions .faultless) ∧
      (s.maxBytes < 2 ^ 63 → s.SameEvictions .faultless → s.maxBytes < 5 ∨ s.WrittenInOrder) :=
  lru_order_survives_iff .faultless (fun _ => rfl) (fun _ => rfl) strictMono_id 18 _ (by simp)

theorem mergeSort_pair {m m' : ℕ} (hlt : m' < m) (key key' : Bytes) :
    [(m, key), (m', key')].mergeSort earlier = [(m', key'), (m, key)] := by
  have hnot : ¬ m < m' := hlt.not_gt
  simp [List.mergeSort, earlier, hnot, hlt.ne']

/-- `a` is older than `b` and was read since.  The old store would evict `b` for `c`, and the new
one evicts `a`. -/
theorem get_forgotten :
    let ops : List StoreOp := [.put (ascii "a") (ascii "1"), .put (ascii "b") (ascii "2"),
      .get (ascii "a")]
    let s := (reopen .faultless 12 {}).run .faultless ops
    s.evictions (ascii "c") (ascii "3") = [ascii "b"] ∧
      (reopen .faultless 12 s.disk).evictions (ascii "c") (ascii "3") = [ascii "a"] ∧
      ¬ s.SameEvictions .faultless := by
  intro ops s
  have hold : s.evictions (ascii "c") (ascii "3") = [ascii "b"] := by decide +kernel
  have hfound : (s.disk.files.foldl (scanFile .faultless) { accesses := s.disk.accesses }).found =
      [(1, ascii "b"), (0, ascii "a")] := by decide +kernel
  have hnew : (reopen .faultless 12 s.disk).evictions (ascii "c") (ascii "3") = [ascii "a"] := by
    rw [reopen, hfound, mergeSort_pair Nat.zero_lt_one]
    decide +kernel
  refine ⟨hold, hnew, fun hsame => ?_⟩
  have hmax : s.maxBytes = 12 := by decide +kernel
  have hlog := (List.cons.inj (hsame [(ascii "c", ascii "3")])).1
  rw [hmax, hnew, hold] at hlog
  exact absurd hlog (by decide)

end DiskStore

end Reame.Cache
