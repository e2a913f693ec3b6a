import Reame.Cache.StoreContents
import Reame.Foundation.Lru

/-!
# Operations on the store and the order of use

`StoreOp` is what can be done with a store, `run` a sequence of operations.  The entries
by their recency stamps are a queue (`DiskStore.queue`), and the operations are those of a
queue: `remove` takes a key out, a `get` that hits moves it to the end (`queue_get`), and
`put` takes its own key out, drops keys from the front until the new entry fits and
appends it (`put_spec`).

What makes this so is that keys and stamps are distinct and that `total_bytes_` is the
sum of the sizes (`Accounted`), as far as 64 bits can tell.
-/

namespace Reame.Cache

open Lru

/-- What can be done with a store; `reopen` is the end of its owner and a new one. -/
inductive StoreOp
  | put (key data : Bytes)
  | get (key : Bytes)
  | contains (key : Bytes)
  | remove (key : Bytes)
  | clear
  | reopen (maxBytes : ℕ)
deriving DecidableEq, Repr

namespace DiskStore

variable (fs : FileSystem)

/-- One operation. -/
def apply (s : DiskStore) : StoreOp → DiskStore
  | .put key data => (s.put fs key data).2
  | .get key => (s.get fs key).2
  | .contains _ => s
  | .remove key => (s.remove key).2
  | .clear => s.clear
  | .reopen maxBytes => reopen fs maxBytes s.disk

/-- A sequence of operations. -/
def run (s : DiskStore) (ops : List StoreOp) : DiskStore := ops.foldl (fun s op => s.apply fs op) s

/-- Every operation of a run meets a condition on the store it finds. -/
def Throughout (allowed : DiskStore → StoreOp → Prop) (s : DiskStore) : List StoreOp → Prop
  | [] => True
  | op :: ops => allowed s op ∧ Throughout allowed (s.apply fs op) ops

instance decidableThroughout (allowed : DiskStore → StoreOp → Prop)
    [∀ s op, Decidable (allowed s op)] :
    ∀ (s : DiskStore) (ops : List StoreOp), Decidable (Throughout fs allowed s ops)
  | _, [] => inferInstanceAs (Decidable True)
  | s, op :: ops =>
      have := decidableThroughout allowed (s.apply fs op) ops
      inferInstanceAs (Decidable (_ ∧ _))

variable {fs}

/-- What every operation preserves holds after a run. -/
theorem run_induction {allowed : DiskStore → StoreOp → Prop} {inv : DiskStore → Prop}
    (hstep : ∀ s op, inv s → allowed s op → inv (s.apply fs op)) {s : DiskStore} (hinv : inv s)
    {ops : List StoreOp} (hops : Throughout fs allowed s ops) : inv (s.run fs ops) := by
  induction ops generalizing s with
  | nil => exact hinv
  | cons op ops ih => exact ih (hstep s op hinv hops.1) hops.2

/-! ## Sizes and stamps -/

/-- The sum of the sizes of entries. -/
def sizes (entries : List (Bytes × Entry)) : ℕ := (entries.map (·.2.size)).sum

/-- The keys and sizes of the entries, the least recently used first. -/
def queue (s : DiskStore) : Queue Bytes :=
  (byStamp (fun item => item.2.recency) s.entries).map fun item => (item.1, item.2.size)

/-- The index is a map, its stamps are distinct and older than the next one, and
`total_bytes_` is the sum of the sizes. -/
structure Accounted (s : DiskStore) : Prop where
  keys : (s.entries.map Prod.fst).Nodup
  stamps : (s.entries.map (·.2.recency)).Nodup
  fresh : ∀ item ∈ s.entries, item.2.recency < s.nextRecency
  total : s.totalBytes = sizes s.entries % 2 ^ 64

variable {s : DiskStore}

theorem weight_queue (s : DiskStore) : s.queue.weight = sizes s.entries := by
  rw [queue, Queue.weight, List.map_map]
  exact ((byStamp_perm _ s.entries).map _).sum_eq

theorem keys_queue_perm (s : DiskStore) :
    (s.queue.map Prod.fst).Perm (s.entries.map Prod.fst) := by
  rw [queue, List.map_map]
  exact (byStamp_perm _ s.entries).map _

theorem lookup_of_mem {β : Type*} {entries : List (Bytes × β)} (hkeys : (entries.map Prod.fst).Nodup)
    {key : Bytes} {e : β} (hmem : (key, e) ∈ entries) : entries.lookup key = some e := by
  obtain ⟨before, after, rfl⟩ := List.append_of_mem hmem
  refine List.lookup_eq_some_iff.mpr ⟨before, after, rfl, fun item hitem => ?_⟩
  rw [List.map_append, List.map_cons] at hkeys
  have hne := (List.nodup_append.mp hkeys).2.2 _ (List.mem_map_of_mem hitem) key
    (List.mem_cons_self ..)
  simpa using hne.symm

/-- Of an entry and the rest. -/
theorem perm_filter {entries : List (Bytes × Entry)} (hkeys : (entries.map Prod.fst).Nodup)
    {key : Bytes} {e : Entry} (hlookup : entries.lookup key = some e) :
    entries.Perm ((key, e) :: entries.filter (·.1 ≠ key)) := by
  obtain ⟨before, after, rfl, -⟩ := List.lookup_eq_some_iff.mp hlookup
  rw [List.map_append, List.map_cons] at hkeys
  have hbefore : before.filter (·.1 ≠ key) = before := by
    refine List.filter_eq_self.mpr fun item hitem => ?_
    have hne := (List.nodup_append.mp hkeys).2.2 _ (List.mem_map_of_mem hitem) key
      (List.mem_cons_self ..)
    simpa using hne
  have hafter : after.filter (·.1 ≠ key) = after := by
    refine List.filter_eq_self.mpr fun item hitem => ?_
    have hne : item.1 ≠ key := by
      rintro rfl
      refine (List.nodup_cons.mp (List.nodup_append.mp hkeys).2.1).1 ?_
      exact List.mem_map.mpr ⟨item, hitem, rfl⟩
    simpa using hne
  rw [List.filter_append, List.filter_cons_of_neg (by simp), hbefore, hafter]
  exact List.perm_middle

theorem filter_of_lookup_none {entries : List (Bytes × Entry)} {key : Bytes}
    (hlookup : entries.lookup key = none) : entries.filter (·.1 ≠ key) = entries := by
  refine List.filter_eq_self.mpr fun item hitem => ?_
  simpa using (bne_iff_ne.mp (List.lookup_eq_none_iff.mp hlookup item hitem)).symm

/-! ## Removing -/

theorem entries_remove (s : DiskStore) (key : Bytes) :
    (s.remove key).2.entries = s.entries.filter (·.1 ≠ key) := by
  unfold remove
  split
  · rename_i hnone
    exact (filter_of_lookup_none hnone).symm
  · rfl

@[simp] theorem maxBytes_remove (s : DiskStore) (key : Bytes) :
    (s.remove key).2.maxBytes = s.maxBytes := by
  unfold remove
  split <;> rfl

@[simp] theorem nextRecency_remove (s : DiskStore) (key : Bytes) :
    (s.remove key).2.nextRecency = s.nextRecency := by
  unfold remove
  split <;> rfl

theorem Accounted.remove (hs : Accounted s) (key : Bytes) : Accounted (s.remove key).2 where
  keys := by
    rw [entries_remove]
    exact hs.keys.sublist (List.filter_sublist.map _)
  stamps := by
    rw [entries_remove]
    exact hs.stamps.sublist (List.filter_sublist.map _)
  fresh item hitem := by
    rw [entries_remove] at hitem
    rw [nextRecency_remove]
    exact hs.fresh item (List.mem_filter.mp hitem).1
  total := by
    rw [entries_remove]
    cases hlookup : s.entries.lookup key with
    | none => rw [DiskStore.remove, hlookup, filter_of_lookup_none hlookup, hs.total]
    | some e =>
        have hsum : sizes s.entries = e.size + sizes (s.entries.filter (·.1 ≠ key)) :=
          ((perm_filter hs.keys hlookup).map _).sum_eq
        rw [DiskStore.remove, hlookup]
        dsimp only
        rw [hs.total, hsum]
        omega

theorem queue_remove (hs : Accounted s) (key : Bytes) :
    (s.remove key).2.queue = s.queue.filter (·.1 ≠ key) := by
  rw [queue, queue, entries_remove, byStamp_filter _ hs.stamps, List.filter_map]
  rfl

theorem contains_iff {key : Bytes} : s.contains key = true ↔ key ∈ s.entries.map Prod.fst := by
  constructor
  · intro hsome
    obtain ⟨e, hlookup⟩ := Option.isSome_iff_exists.mp hsome
    exact List.mem_map.mpr ⟨(key, e), mem_of_lookup hlookup, rfl⟩
  · intro hmem
    obtain ⟨item, hitem, rfl⟩ := List.mem_map.mp hmem
    by_contra hnone
    rw [contains, Bool.not_eq_true, Option.isSome_eq_false_iff, Option.isNone_iff_eq_none] at hnone
    simpa using List.lookup_eq_none_iff.mp hnone item hitem

theorem mem_keys_queue {key : Bytes} : key ∈ s.queue.map Prod.fst ↔ s.contains key = true := by
  rw [(keys_queue_perm s).mem_iff, contains_iff]

theorem mem_queue {key : Bytes} {size : ℕ} :
    (key, size) ∈ s.queue ↔ ∃ e, (key, e) ∈ s.entries ∧ e.size = size := by
  rw [queue, List.mem_map]
  constructor
  · rintro ⟨item, hitem, heq⟩
    obtain ⟨rfl, rfl⟩ := Prod.mk.inj heq
    exact ⟨item.2, (mem_byStamp _).mp hitem, rfl⟩
  · rintro ⟨e, he, rfl⟩
    exact ⟨_, (mem_byStamp _).mpr he, rfl⟩

theorem contains_remove {key other : Bytes} :
    (s.remove key).2.contains other = true ↔ other ≠ key ∧ s.contains other = true := by
  rw [contains_iff, contains_iff, entries_remove, List.mem_map, List.mem_map]
  constructor
  · rintro ⟨item, hitem, rfl⟩
    obtain ⟨hmem, hne⟩ := List.mem_filter.mp hitem
    exact ⟨by simpa using hne, item, hmem, rfl⟩
  · rintro ⟨hne, item, hitem, rfl⟩
    exact ⟨item, List.mem_filter.mpr ⟨hitem, by simpa using hne⟩, rfl⟩

/-! ## Evicting -/

/-- What every removal preserves holds after an eviction. -/
theorem evict_induction {inv : DiskStore → Prop} (hremove : ∀ s key, inv s → inv (s.remove key).2)
    (hinv : inv s) (incoming : ℕ) : inv (s.evictUntilFits incoming) := by
  have hloop : ∀ (fuel : ℕ) (s : DiskStore), inv s → inv (evictLoop incoming fuel s) := by
    intro fuel
    induction fuel with
    | zero => exact fun _ hinv => hinv
    | succ fuel ih =>
        intro s hinv
        rw [evictLoop]
        split
        · exact hinv
        · split
          · exact ih _ (hremove s _ hinv)
          · exact hinv
  rw [evictUntilFits]
  split
  · exact hinv
  · exact hloop _ s hinv

/-- The condition of `evict_until_fits`, by the sum of the sizes. -/
def overfull (maxBytes incoming total : ℕ) : Bool :=
  decide (maxBytes ≠ 0 ∧ maxBytes < (total + incoming) % 2 ^ 64)

/-- The keys that the loop of `evict_until_fits` removes, one after the other. -/
def evictedKeys (incoming : ℕ) : ℕ → DiskStore → List Bytes
  | 0, _ => []
  | fuel + 1, s =>
      match lru s.entries with
      | none => []
      | some key =>
          if s.maxBytes < (s.totalBytes + incoming) % 2 ^ 64 then
            key :: evictedKeys incoming fuel (s.remove key).2
          else []

/-- The keys that `put` evicts, one after the other. -/
def evictions (s : DiskStore) (key data : Bytes) : List Bytes :=
  let incoming := entrySize key data.length
  let s := (s.remove key).2
  if s.maxBytes = 0 ∨ s.maxBytes < incoming then [] else evictedKeys incoming s.entries.length s

/-- The least recently used entry is at the front of the queue. -/
theorem lru_eq_head (hs : Accounted s) : lru s.entries = (s.queue.map Prod.fst).head? := by
  rw [lru, argmin_eq_head _ hs.stamps, queue, List.map_map, List.head?_map]
  rfl

theorem evictLoop_spec (hs : Accounted s) (hmax : s.maxBytes ≠ 0) (incoming : ℕ) {fuel : ℕ}
    (hfuel : s.entries.length ≤ fuel) :
    Accounted (evictLoop incoming fuel s) ∧
      (evictLoop incoming fuel s).queue = s.queue.makeRoom (overfull s.maxBytes incoming) ∧
      evictedKeys incoming fuel s = s.queue.dropped (overfull s.maxBytes incoming) ∧
      (evictLoop incoming fuel s).maxBytes = s.maxBytes ∧
      (evictLoop incoming fuel s).nextRecency = s.nextRecency := by
  induction fuel generalizing s with
  | zero =>
      have hentries : s.entries = [] := List.length_eq_zero_iff.mp (Nat.le_zero.mp hfuel)
      have hqueue : s.queue = [] := by rw [queue, hentries, byStamp_nil, List.map_nil]
      rw [hqueue]
      exact ⟨hs, hqueue, rfl, rfl, rfl⟩
  | succ fuel ih =>
      have hlru := lru_eq_head hs
      have hweight := weight_queue s
      rw [evictLoop, evictedKeys]
      cases hqueue : s.queue with
      | nil =>
          rw [hqueue, List.map_nil, List.head?_nil] at hlru
          rw [hlru]
          exact ⟨hs, hqueue, rfl, rfl, rfl⟩
      | cons item q =>
          rw [hqueue, List.map_cons, List.head?_cons] at hlru
          have hcond : s.maxBytes < (s.totalBytes + incoming) % 2 ^ 64 ↔
              overfull s.maxBytes incoming (Queue.weight (item :: q)) = true := by
            rw [← hqueue, hweight, hs.total, overfull, decide_eq_true_eq, Nat.mod_add_mod,
              and_iff_right hmax]
          rw [hlru, Queue.makeRoom, Queue.dropped]
          by_cases hfull : s.maxBytes < (s.totalBytes + incoming) % 2 ^ 64
          · -- The removed key is the front of the queue, and is nowhere else in it.
            have hkeys : (s.queue.map Prod.fst).Nodup :=
              (keys_queue_perm s).nodup_iff.mpr hs.keys
            rw [hqueue, List.map_cons, List.nodup_cons] at hkeys
            have hrest : (s.remove item.1).2.queue = q := by
              rw [queue_remove hs, hqueue, List.filter_cons_of_neg (by simp)]
              refine List.filter_eq_self.mpr fun other hother => ?_
              have hne : other.1 ≠ item.1 := fun heq =>
                hkeys.1 (heq ▸ List.mem_map_of_mem hother)
              simpa using hne
            have hshorter : (s.remove item.1).2.entries.length ≤ fuel := by
              have hlength := congrArg List.length hrest
              have hbefore := congrArg List.length hqueue
              simp only [queue, List.length_map, (byStamp_perm _ _).length_eq,
                List.length_cons] at hlength hbefore
              omega
            obtain ⟨haccounted, hroom, hdropped, hsame, hnext⟩ :=
              ih (hs.remove item.1) (by rwa [maxBytes_remove]) hshorter
            rw [hrest, maxBytes_remove] at hroom hdropped
            rw [maxBytes_remove] at hsame
            rw [nextRecency_remove] at hnext
            simp only [if_pos hfull, if_pos (hcond.mp hfull)]
            exact ⟨haccounted, hroom, by rw [hdropped], hsame, hnext⟩
          · simp only [if_neg hfull, if_neg (mt hcond.mpr hfull)]
            exact ⟨hs, hqueue, trivial, trivial, trivial⟩

theorem evictUntilFits_spec (hs : Accounted s) (incoming : ℕ) :
    Accounted (s.evictUntilFits incoming) ∧
      (s.evictUntilFits incoming).queue = s.queue.makeRoom (overfull s.maxBytes incoming) ∧
      (s.evictUntilFits incoming).maxBytes = s.maxBytes ∧
      (s.evictUntilFits incoming).nextRecency = s.nextRecency := by
  unfold evictUntilFits
  by_cases hmax : s.maxBytes = 0
  · rw [if_pos hmax, Queue.makeRoom_of_never fun total => by simp [overfull, hmax]]
    exact ⟨hs, rfl, rfl, rfl⟩
  · obtain ⟨haccounted, hroom, -, hsame, hnext⟩ := evictLoop_spec hs hmax incoming le_rfl
    rw [if_neg hmax]
    exact ⟨haccounted, hroom, hsame, hnext⟩

/-! ## Putting -/

/-- The store that `put` writes to. -/
def cleared (s : DiskStore) (key : Bytes) (incoming : ℕ) : DiskStore :=
  (s.remove key).2.evictUntilFits incoming

/-- Making room reads and writes nothing. -/
theorem accesses_cleared (s : DiskStore) (key : Bytes) (incoming : ℕ) :
    (s.cleared key incoming).disk.accesses = s.disk.accesses := by
  rw [cleared, accesses_evictUntilFits, accesses_remove]

/-- The store after a write that succeeds. -/
def written (s : DiskStore) (key : Bytes) (incoming : ℕ) (disk : Disk) : DiskStore :=
  { s with
    disk
    entries := (key, ⟨pathFor key, incoming, s.nextRecency⟩) :: s.entries.filter (·.1 ≠ key)
    totalBytes := (s.totalBytes + incoming) % 2 ^ 64
    nextRecency := s.nextRecency + 1 }

/-- The directory without a file. -/
def erased (disk : Disk) (path : Bytes) : Disk :=
  { disk.remove path with accesses := disk.accesses + 1 }

/-- `put` refuses what is larger than the budget. -/
theorem put_refused (fs : FileSystem) {key data : Bytes}
    (hlarge : s.maxBytes ≠ 0 ∧ s.maxBytes < entrySize key data.length) :
    s.put fs key data = (false, s) := by
  rw [put, if_pos hlarge]

/-- What `put` can do: refuse what is larger than the budget, or make room and fail to write, or
make room and write, as far as it can tell. -/
theorem put_cases (fs : FileSystem) (s : DiskStore) (key data : Bytes) :
    let incoming := entrySize key data.length
    let cleared := s.cleared key incoming
    let large := s.maxBytes ≠ 0 ∧ s.maxBytes < incoming
    let disk := erased cleared.disk (pathFor key)
    let left := fs.left s.disk.accesses (encodeFile key data)
    large ∧ s.put fs key data = (false, s) ∨
    ¬ large ∧ left = none ∧ s.put fs key data = (false, { cleared with disk }) ∨
    ¬ large ∧ ∃ kept, left = some kept ∧
      s.put fs key data = (true, cleared.written key incoming { disk with
        files := (pathFor key, ⟨kept, fs.mtime s.disk.accesses⟩) :: disk.files }) := by
  dsimp only
  by_cases hlarge : s.maxBytes ≠ 0 ∧ s.maxBytes < entrySize key data.length
  · exact .inl ⟨hlarge, put_refused fs hlarge⟩
  refine .inr ?_
  have hcleared : (s.remove key).2.evictUntilFits (entrySize key data.length) =
      s.cleared key (entrySize key data.length) := rfl
  have haccesses := accesses_cleared s key (entrySize key data.length)
  rw [put, if_neg hlarge]
  simp only [hcleared, Disk.write, haccesses]
  cases hleft : fs.left s.disk.accesses (encodeFile key data) with
  | none => exact .inl ⟨hlarge, rfl, by rw [erased, haccesses]⟩
  | some kept => exact .inr ⟨hlarge, kept, rfl, by rw [erased, haccesses]; rfl⟩

/-- What `put` can do where no write fails unnoticed. -/
theorem put_cases_noticed {fs : FileSystem} {s : DiskStore} (hnoticed : fs.Notices s.disk.accesses)
    (key data : Bytes) :
    let incoming := entrySize key data.length
    let cleared := s.cleared key incoming
    let large := s.maxBytes ≠ 0 ∧ s.maxBytes < incoming
    let disk := erased cleared.disk (pathFor key)
    large ∧ s.put fs key data = (false, s) ∨
    ¬ large ∧ fs.writeFails s.disk.accesses = true ∧
      s.put fs key data = (false, { cleared with disk }) ∨
    ¬ large ∧ fs.writeFails s.disk.accesses = false ∧
      s.put fs key data = (true, cleared.written key incoming { disk with
        files := (pathFor key, ⟨encodeFile key data, fs.mtime s.disk.accesses⟩) ::
          disk.files }) := by
  rcases put_cases fs s key data with hlarge | ⟨hsmall, hleft, hput⟩ | ⟨hsmall, kept, hleft, hput⟩
  · exact .inl hlarge
  · exact .inr (.inl ⟨hsmall, FileSystem.writeFails_of_left hleft, hput⟩)
  · obtain ⟨hwrite, rfl⟩ := (FileSystem.left_spec hleft).2 hnoticed
    exact .inr (.inr ⟨hsmall, hwrite, hput⟩)

/-- All of the file that `put` writes is on the disk. -/
def WritesWhole (fs : FileSystem) (s : DiskStore) (key data : Bytes) : Prop :=
  fs.left s.disk.accesses (encodeFile key data) = some (encodeFile key data)

instance (fs : FileSystem) (s : DiskStore) (key data : Bytes) :
    Decidable (s.WritesWhole fs key data) :=
  inferInstanceAs (Decidable (_ = _))

/-- A successful `put` whose file is whole. -/
theorem put_of_whole {fs : FileSystem} {key data : Bytes} (hput : (s.put fs key data).1 = true)
    (hwhole : s.WritesWhole fs key data) :
    let incoming := entrySize key data.length
    let disk := erased (s.cleared key incoming).disk (pathFor key)
    s.put fs key data = (true, (s.cleared key incoming).written key incoming { disk with
      files := (pathFor key, ⟨encodeFile key data, fs.mtime s.disk.accesses⟩) :: disk.files }) := by
  rcases put_cases fs s key data with ⟨-, hcase⟩ | ⟨-, -, hcase⟩ | ⟨-, kept, hleft, hcase⟩
  · rw [hcase] at hput
    cases hput
  · rw [hcase] at hput
    cases hput
  · obtain rfl : encodeFile key data = kept := Option.some.inj (hwhole.symm.trans hleft)
    exact hcase

theorem writesWhole_of_notices {fs : FileSystem} (hnoticed : fs.Notices s.disk.accesses)
    {key data : Bytes} (hput : (s.put fs key data).1 = true) : s.WritesWhole fs key data := by
  rcases put_cases_noticed hnoticed key data with ⟨-, hcase⟩ | ⟨-, -, hcase⟩ | ⟨-, hwrite, -⟩
  · rw [hcase] at hput
    cases hput
  · rw [hcase] at hput
    cases hput
  · exact FileSystem.left_of_succeeds hwrite

theorem lookups_of_whole {fs : FileSystem} {key data : Bytes} (hput : (s.put fs key data).1 = true)
    (hwhole : s.WritesWhole fs key data) :
    (∃ recency, (s.put fs key data).2.entries.lookup key =
      some ⟨pathFor key, entrySize key data.length, recency⟩) ∧
    (s.put fs key data).2.disk.files.lookup (pathFor key) =
      some ⟨encodeFile key data, fs.mtime s.disk.accesses⟩ := by
  rw [put_of_whole hput hwhole]
  exact ⟨⟨_, List.lookup_cons_self⟩, List.lookup_cons_self⟩

/-- Whatever a write leaves, the files have the names of their keys. -/
theorem labelled_put (fs : FileSystem) {good : Bytes → Bytes → Prop} (hs : s.disk.Labelled good)
    {key data : Bytes} (hkey : key.length < 2 ^ 32)
    (hgood : ∀ kept, kept <+: encodeFile key data → good key kept) :
    (s.put fs key data).2.disk.Labelled good := by
  have hmade := hs.sublist ((shrunk_remove s key).trans
    (shrunk_evictUntilFits _ (entrySize key data.length))).files
  unfold put
  dsimp only
  split
  · exact hs
  · have hwritten := hmade.write fs hkey hgood
    split
    · rename_i disk hwrite
      rwa [hwrite] at hwritten
    · rename_i disk hwrite
      rwa [hwrite] at hwritten

/-- Without failing writes `put` succeeds unless the entry is larger than the budget. -/
theorem put_ok {fs : FileSystem} (hwrite : ∀ access, fs.writeFails access = false) {key data : Bytes}
    (hsmall : ¬ (s.maxBytes ≠ 0 ∧ s.maxBytes < entrySize key data.length)) :
    (s.put fs key data).1 = true := by
  have hnoticed := FileSystem.notices_of_succeeds (hwrite s.disk.accesses)
  rcases put_cases_noticed hnoticed key data with ⟨hlarge, -⟩ | ⟨-, hfails, -⟩ | ⟨-, -, hput⟩
  · exact absurd hlarge hsmall
  · rw [hwrite] at hfails
    cases hfails
  · rw [hput]

/-- Without a budget, `put` of a new key only adds. -/
theorem put_new (fs : FileSystem) (hmax : s.maxBytes = 0) (key : Bytes)
    (hnew : s.entries.lookup key = none) (data : Bytes)
    (hwrite : fs.writeFails s.disk.accesses = false) :
    s.put fs key data = (true, s.written key (entrySize key data.length)
      { erased s.disk (pathFor key) with
        files := (pathFor key, ⟨encodeFile key data, fs.mtime s.disk.accesses⟩) ::
          (erased s.disk (pathFor key)).files }) := by
  have hcleared : s.cleared key (entrySize key data.length) = s := by
    rw [cleared, remove, hnew, evictUntilFits, if_pos hmax]
  have hnoticed := FileSystem.notices_of_succeeds hwrite
  rcases put_cases_noticed hnoticed key data with ⟨hlarge, -⟩ | ⟨-, hfails, -⟩ | ⟨-, -, hput⟩
  · exact absurd hmax hlarge.1
  · rw [hwrite] at hfails
    cases hfails
  · rw [hput, hcleared]

theorem Accounted.ofDisk (hs : Accounted s) (disk : Disk) : Accounted { s with disk } :=
  ⟨hs.keys, hs.stamps, hs.fresh, hs.total⟩

theorem cleared_new (s : DiskStore) (key : Bytes) (incoming : ℕ) :
    ∀ item ∈ (s.cleared key incoming).entries, item.1 ≠ key := by
  intro item hitem
  have hbefore := (shrunk_evictUntilFits (s.remove key).2 incoming).entries.subset hitem
  rw [entries_remove] at hbefore
  simpa using (List.mem_filter.mp hbefore).2

theorem cleared_spec (hs : Accounted s) (key : Bytes) (incoming : ℕ) :
    Accounted (s.cleared key incoming) ∧
      (s.cleared key incoming).queue =
        Queue.makeRoom (overfull s.maxBytes incoming) (s.queue.filter (·.1 ≠ key)) ∧
      (s.cleared key incoming).maxBytes = s.maxBytes := by
  obtain ⟨haccounted, hqueue, hmax, -⟩ := evictUntilFits_spec (hs.remove key) incoming
  rw [queue_remove hs, maxBytes_remove] at hqueue
  rw [maxBytes_remove] at hmax
  exact ⟨haccounted, hqueue, hmax⟩

theorem written_spec (hs : Accounted s) {key : Bytes} (hkey : ∀ item ∈ s.entries, item.1 ≠ key)
    (incoming : ℕ) (disk : Disk) :
    Accounted (s.written key incoming disk) ∧
      (s.written key incoming disk).queue = s.queue ++ [(key, incoming)] := by
  have hfilter : s.entries.filter (·.1 ≠ key) = s.entries :=
    List.filter_eq_self.mpr fun item hitem => by simpa using hkey item hitem
  refine ⟨⟨?_, ?_, ?_, ?_⟩, ?_⟩
  · rw [written, hfilter, List.map_cons, List.nodup_cons]
    refine ⟨fun hmem => ?_, hs.keys⟩
    obtain ⟨item, hitem, heq⟩ := List.mem_map.mp hmem
    exact hkey item hitem heq
  · rw [written, hfilter, List.map_cons, List.nodup_cons]
    refine ⟨fun hmem => ?_, hs.stamps⟩
    obtain ⟨item, hitem, heq⟩ := List.mem_map.mp hmem
    exact absurd heq (hs.fresh item hitem).ne
  · intro item hitem
    rw [written, hfilter] at hitem
    rcases List.mem_cons.mp hitem with rfl | hold
    · exact Nat.lt_succ_self _
    · exact (hs.fresh item hold).trans (Nat.lt_succ_self _)
  · simp only [written, hfilter, hs.total, sizes, List.map_cons, List.sum_cons]
    omega
  · rw [queue, written, hfilter, byStamp_cons_last _ hs.stamps hs.fresh, List.map_append]
    rfl

/-- `put` and the queue: it is refused for its size, or room is made for it, and it comes last
when it is written. -/
theorem put_spec (fs : FileSystem) (hs : Accounted s) (key data : Bytes) :
    let incoming := entrySize key data.length
    Accounted (s.put fs key data).2 ∧
      (¬ (s.maxBytes ≠ 0 ∧ s.maxBytes < incoming) →
        (s.put fs key data).2.queue =
          Queue.makeRoom (overfull s.maxBytes incoming) (s.queue.filter (·.1 ≠ key)) ++
            if (s.put fs key data).1 then [(key, incoming)] else []) ∧
      (s.put fs key data).2.maxBytes = s.maxBytes := by
  obtain ⟨hcleared, hqueue, hmax⟩ := cleared_spec hs key (entrySize key data.length)
  have hkey := cleared_new s key (entrySize key data.length)
  dsimp only
  rcases put_cases fs s key data with ⟨hlarge, hput⟩ | ⟨-, -, hput⟩ | ⟨-, _, -, hput⟩ <;> rw [hput]
  · exact ⟨hs, fun hfits => absurd hlarge hfits, rfl⟩
  · refine ⟨hcleared.ofDisk _, fun _ => ?_, hmax⟩
    rw [← hqueue, if_neg (by simp), List.append_nil]
    rfl
  · obtain ⟨hwritten, happend⟩ := written_spec hcleared hkey (entrySize key data.length) _
    refine ⟨hwritten, fun _ => ?_, hmax⟩
    rw [← hqueue, if_pos rfl]
    exact happend

/-! ## Getting -/

/-- What `get` finds behind an entry. -/
def readBack (fs : FileSystem) (s : DiskStore) (key : Bytes) (e : Entry) : Option Bytes :=
  (s.disk.read fs e.path).1.bind fun content => readEntry content key (e.size - 4 - key.length)

/-- The directory after one more access. -/
def accessed (s : DiskStore) : DiskStore :=
  { s with disk := { s.disk with accesses := s.disk.accesses + 1 } }

/-- What `get` can do: find nothing, drop an entry that cannot be read back, or return what is
read and stamp the entry. -/
theorem get_cases (fs : FileSystem) (s : DiskStore) (key : Bytes) :
    s.entries.lookup key = none ∧ s.get fs key = (none, s) ∨
    ∃ e, s.entries.lookup key = some e ∧
      (s.readBack fs key e = none ∧ s.get fs key = (none, (s.accessed.remove key).2) ∨
      ∃ payload, s.readBack fs key e = some payload ∧
        s.get fs key = (some payload, { s.accessed with
          entries := stamp s.entries key s.nextRecency
          nextRecency := s.nextRecency + 1 })) := by
  rw [get]
  cases hlookup : s.entries.lookup key with
  | none => exact .inl ⟨rfl, rfl⟩
  | some e =>
      refine .inr ⟨e, rfl, ?_⟩
      simp only [readBack, Disk.read]
      cases hread : Option.bind (if fs.readFails s.disk.accesses = true then none
          else (s.disk.files.lookup e.path).map File.content)
          fun content => readEntry content key (e.size - 4 - key.length) with
      | none => exact .inl ⟨rfl, rfl⟩
      | some payload => exact .inr ⟨payload, rfl, rfl⟩

/-- `get` can only delete a file. -/
theorem files_get (fs : FileSystem) (s : DiskStore) (key : Bytes) :
    (s.get fs key).2.disk.files.Sublist s.disk.files := by
  rcases get_cases fs s key with ⟨-, hget⟩ | ⟨e, -, ⟨-, hget⟩ | ⟨payload, -, hget⟩⟩ <;> rw [hget]
  · exact (shrunk_remove s.accessed key).files
  · exact List.Sublist.refl _

/-- What `get` returns is read from the file of the entry. -/
theorem get_eq_some {key data : Bytes} (hget : (s.get fs key).1 = some data) :
    ∃ e file, s.entries.lookup key = some e ∧ s.disk.files.lookup e.path = some file ∧
      readEntry file.content key (e.size - 4 - key.length) = some data := by
  rcases get_cases fs s key with
    ⟨-, hnone⟩ | ⟨e, hlookup, ⟨-, hnone⟩ | ⟨payload, hback, hfound⟩⟩
  · rw [hnone] at hget
    cases hget
  · rw [hnone] at hget
    cases hget
  · rw [hfound, Option.some.injEq] at hget
    subst hget
    obtain ⟨content, hcontent, hentry⟩ := Option.bind_eq_some_iff.mp hback
    rw [Disk.read] at hcontent
    split at hcontent
    · cases hcontent
    · obtain ⟨file, hfile, rfl⟩ := Option.map_eq_some_iff.mp hcontent
      exact ⟨e, file, hlookup, hfile, hentry⟩

/-- What `get` returns when the file of an entry is there and is not overlooked. -/
theorem get_of_lookup {key : Bytes} {e : Entry} {file : File}
    (hlookup : s.entries.lookup key = some e) (hread : fs.readFails s.disk.accesses = false)
    (hfile : s.disk.files.lookup e.path = some file) :
    (s.get fs key).1 = readEntry file.content key (e.size - 4 - key.length) := by
  have hback : s.readBack fs key e =
      readEntry file.content key (e.size - 4 - key.length) := by
    rw [readBack, Disk.read, hfile, if_neg (by simp [hread]), Option.map_some, Option.bind_some]
  rcases get_cases fs s key with ⟨hnone, -⟩ | ⟨e', hlookup', hcase⟩
  · rw [hlookup] at hnone
    cases hnone
  · rw [hlookup, Option.some.injEq] at hlookup'
    subst hlookup'
    rcases hcase with ⟨hback', hget⟩ | ⟨payload, hback', hget⟩ <;>
      rw [hget, ← hback, hback']

/-- An entry whose file is there, with the size that it has, can be read back. -/
theorem get_of_file {key data : Bytes} {e : Entry} {mtime : ℕ}
    (hlookup : s.entries.lookup key = some e) (hread : fs.readFails s.disk.accesses = false)
    (hfile : s.disk.files.lookup e.path = some ⟨encodeFile key data, mtime⟩)
    (hsize : e.size = entrySize key data.length) (hkey : key.length < 2 ^ 32) :
    (s.get fs key).1 = some data := by
  have hpayload : ((encodeFile key data).drop (4 + key.length)).take data.length = data := by
    rw [← List.drop_drop, drop_encodeFile, List.drop_left, List.take_length]
  have hlength : e.size - 4 - key.length = data.length := by
    rw [hsize, entrySize]
    omega
  rw [get_of_lookup hlookup hread hfile, hlength, readEntry,
    if_pos (storedKey_encodeFile hkey data), hpayload]
  exact if_neg (lt_irrefl _)

theorem stamp_perm {entries : List (Bytes × Entry)} (hkeys : (entries.map Prod.fst).Nodup)
    {key : Bytes} {e : Entry} (hlookup : entries.lookup key = some e) (recency : ℕ) :
    (stamp entries key recency).Perm
      ((key, { e with recency }) :: entries.filter (·.1 ≠ key)) := by
  have hperm := (perm_filter hkeys hlookup).map fun item : Bytes × Entry =>
    if item.1 = key then (item.1, { item.2 with recency }) else item
  have hrest : (entries.filter (·.1 ≠ key)).map (fun item : Bytes × Entry =>
      if item.1 = key then (item.1, { item.2 with recency }) else item) =
        entries.filter (·.1 ≠ key) := by
    refine (List.map_congr_left fun item hitem => ?_).trans (List.map_id _)
    have hne : item.1 ≠ key := by simpa using (List.mem_filter.mp hitem).2
    rw [if_neg hne, id]
  rw [List.map_cons, if_pos rfl, hrest] at hperm
  exact hperm

/-- A hit stamps the entry of its key, which is then the last to be evicted. -/
theorem stamped_spec (hs : Accounted s) {key : Bytes} {e : Entry}
    (hlookup : s.entries.lookup key = some e) (disk : Disk) :
    let after := { s with
      disk
      entries := stamp s.entries key s.nextRecency
      nextRecency := s.nextRecency + 1 }
    Accounted after ∧ after.queue = s.queue.filter (·.1 ≠ key) ++ [(key, e.size)] := by
  have hperm := stamp_perm hs.keys hlookup s.nextRecency
  have hbefore := perm_filter hs.keys hlookup
  have hrest : ∀ item ∈ s.entries.filter (·.1 ≠ key), item.2.recency < s.nextRecency :=
    fun item hitem => hs.fresh item (List.mem_filter.mp hitem).1
  have hstamps : ((s.entries.filter (·.1 ≠ key)).map (·.2.recency)).Nodup :=
    hs.stamps.sublist (List.filter_sublist.map _)
  have hall : (((key, { e with recency := s.nextRecency }) ::
      s.entries.filter (·.1 ≠ key)).map fun item => item.2.recency).Nodup := by
    rw [List.map_cons, List.nodup_cons]
    refine ⟨fun hmem => ?_, hstamps⟩
    obtain ⟨item, hitem, heq⟩ := List.mem_map.mp hmem
    exact absurd heq (hrest item hitem).ne
  refine ⟨⟨?_, ?_, ?_, ?_⟩, ?_⟩
  · refine (hperm.map _).nodup_iff.mpr ?_
    exact (hbefore.map Prod.fst).nodup_iff.mp hs.keys
  · exact (hperm.map _).nodup_iff.mpr hall
  · intro item hitem
    rcases List.mem_cons.mp (hperm.subset hitem) with rfl | hold
    · exact Nat.lt_succ_self _
    · exact (hrest item hold).trans (Nat.lt_succ_self _)
  · have hstamped := (hperm.map fun item => item.2.size).sum_eq
    have hplain := (hbefore.map fun item => item.2.size).sum_eq
    dsimp only
    rw [hs.total, sizes, sizes, hstamped, hplain]
    rfl
  · rw [queue, byStamp_congr _ hall hperm, byStamp_cons_last _ hstamps hrest,
      byStamp_filter _ hs.stamps, List.map_append, queue, List.filter_map]
    rfl

theorem sizes_le_of_sublist {entries entries' : List (Bytes × Entry)}
    (hsub : entries.Sublist entries') : sizes entries ≤ sizes entries' :=
  (hsub.map _).sum_le_sum (by simp)

/-- `get` keeps the books: it removes an entry, or stamps one. -/
theorem get_spec (fs : FileSystem) (hs : Accounted s) (key : Bytes) :
    Accounted (s.get fs key).2 ∧ sizes (s.get fs key).2.entries ≤ sizes s.entries ∧
      (s.get fs key).2.maxBytes = s.maxBytes := by
  rcases get_cases fs s key with ⟨-, hget⟩ | ⟨e, hlookup, ⟨-, hget⟩ | ⟨payload, -, hget⟩⟩ <;>
    rw [hget]
  · exact ⟨hs, le_rfl, rfl⟩
  · refine ⟨(hs.ofDisk _).remove key, ?_, by simp [accessed]⟩
    rw [entries_remove]
    exact sizes_le_of_sublist List.filter_sublist
  · obtain ⟨haccounted, hqueue⟩ := stamped_spec hs hlookup s.accessed.disk
    refine ⟨haccounted, ?_, rfl⟩
    have hstamped := ((stamp_perm hs.keys hlookup s.nextRecency).map fun item => item.2.size).sum_eq
    have hplain := ((perm_filter hs.keys hlookup).map fun item => item.2.size).sum_eq
    exact (hstamped.trans hplain.symm).le

/-- A `get` that hits moves its key to the end of the queue. -/
theorem queue_get (hs : Accounted s) {key payload : Bytes}
    (hhit : (s.get fs key).1 = some payload) :
    ∃ size, (s.get fs key).2.queue = s.queue.filter (·.1 ≠ key) ++ [(key, size)] := by
  rcases get_cases fs s key with ⟨-, hget⟩ | ⟨e, hlookup, ⟨-, hget⟩ | ⟨payload, -, hget⟩⟩ <;>
    rw [hget] at hhit ⊢
  · cases hhit
  · cases hhit
  · exact ⟨e.size, (stamped_spec hs hlookup s.accessed.disk).2⟩

/-! ## Clearing -/

/-- What every removal preserves holds after `clear`. -/
theorem clear_induction {inv : DiskStore → Prop} (hremove : ∀ s key, inv s → inv (s.remove key).2)
    (hinv : inv s) : inv s.clear := by
  rw [clear]
  generalize s.entries = items
  induction items generalizing s with
  | nil => exact hinv
  | cons item items ih => exact ih (hremove s item.1 hinv)

theorem entries_clear (s : DiskStore) : s.clear.entries = [] := by
  have hgone : ∀ (items : List (Bytes × Entry)) (s : DiskStore),
      (items.foldl (fun s item => (s.remove item.1).2) s).entries =
        s.entries.filter fun item => item.1 ∉ items.map Prod.fst := by
    intro items
    induction items with
    | nil => simp
    | cons first items ih =>
        intro s
        rw [List.foldl_cons, ih, entries_remove, List.filter_filter]
        refine List.filter_congr fun item _ => ?_
        rw [← Bool.decide_and, decide_eq_decide, List.map_cons]
        simp only [List.mem_cons, not_or]
        exact and_comm
  rw [clear, hgone, List.filter_eq_nil_iff]
  intro item hitem
  have hmem : item.1 ∈ s.entries.map Prod.fst := List.mem_map_of_mem hitem
  simpa only [decide_eq_true_eq, not_not] using hmem

/-- The files have the names of their keys in every run, and contents that are good for them if
the front of what is written is. -/
theorem labelled_run {good : Bytes → Bytes → Prop} (hs : s.disk.Labelled good) {ops : List StoreOp}
    (hops : ∀ key data, .put key data ∈ ops →
      key.length < 2 ^ 32 ∧ ∀ kept, kept <+: encodeFile key data → good key kept) :
    (s.run fs ops).disk.Labelled good := by
  have hremove : ∀ (s : DiskStore) (key : Bytes), s.disk.Labelled good →
      (s.remove key).2.disk.Labelled good :=
    fun s key hs => hs.sublist (shrunk_remove s key).files
  induction ops generalizing s with
  | nil => exact hs
  | cons op ops ih =>
      refine ih ?_ fun key data hmem => hops key data (List.mem_cons_of_mem _ hmem)
      cases op with
      | put key data =>
          obtain ⟨hkey, hgood⟩ := hops key data (List.mem_cons_self ..)
          exact labelled_put fs hs hkey hgood
      | get key => exact hs.sublist (files_get fs s key)
      | contains key => exact hs
      | remove key => exact hremove s key hs
      | clear => exact clear_induction hremove hs
      | reopen maxBytes => exact ⟨hs.names, hs.keys, hs.contents⟩

theorem named_run (hs : s.disk.Named) {ops : List StoreOp}
    (hops : ∀ key data, .put key data ∈ ops → key.length < 2 ^ 32) :
    (s.run fs ops).disk.Named :=
  labelled_run hs fun key data hmem => ⟨hops key data hmem, fun _ _ => trivial⟩

/-- What `get` returns is good for its key. -/
theorem get_of_labelled {good : Bytes → Bytes → Prop} (hs : s.disk.Labelled good) {key data : Bytes}
    (hget : (s.get fs key).1 = some data) : ∃ content, good key content ∧
      4 + key.length + data.length ≤ content.length := by
  obtain ⟨e, file, -, hfile, hread⟩ := get_eq_some hget
  obtain ⟨hstored, hlength, hdata⟩ := readEntry_spec hread
  refine ⟨file.content, hs.contents _ (mem_of_lookup hfile) key hstored, ?_⟩
  have hle : data.length ≤ e.size - 4 - key.length := by
    rw [hdata]
    exact List.length_take_le ..
  omega

/-- The directory stays sound in runs that store what is good. -/
theorem sound_run {good : Bytes → Bytes → Prop} (hnoticed : ∀ access, fs.Notices access)
    (hs : s.Sound good) {ops : List StoreOp}
    (hops : ∀ key data, .put key data ∈ ops → key.length < 2 ^ 32 ∧ good key data) :
    (s.run fs ops).Sound good := by
  induction ops generalizing s with
  | nil => exact hs
  | cons op ops ih =>
      refine ih ?_ fun key data hmem => hops key data (List.mem_cons_of_mem _ hmem)
      cases op with
      | put key data =>
          obtain ⟨hkey, hgood⟩ := hops key data (List.mem_cons_self ..)
          exact hs.put fs (hnoticed _) hkey hgood
      | get key => exact (hs.get fs key).1
      | contains key => exact hs
      | remove key => exact hs.remove key
      | clear => exact clear_induction (fun _ key hs => Sound.remove hs key) hs
      | reopen maxBytes => exact sound_reopen fs maxBytes hs.toSound

end DiskStore

end Reame.Cache
