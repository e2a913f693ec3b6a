import Reame.Cache.Restart
import Reame.Foundation.LruMap

/-!
# The store is a map that forgets

`Lru.Shelf` says what a cache with a limit is for, without a directory, an index or
recency stamps.  The disk store gives the answers of such a shelf to every sequence of
requests (`store_answers_like_shelf`), whatever accesses to its files fail: a `put` that
cannot write has made room all the same, a `get` that cannot read forgets the key.

This needs that the keys have different files and that no write fails unnoticed.  What `get`
returns is then decided by the requests alone: the file of a key holds its last data
(`Shelves`), and the order of the stamps is the order of the shelf.
-/

namespace Reame.Cache

open Lru

/-- The limit of a store; zero stands for none. -/
def budget (maxBytes : ℕ) : Option ℕ := if maxBytes = 0 then none else some maxBytes

/-- What an entry weighs. -/
def weigh (key data : Bytes) : ℕ := entrySize key data.length

namespace DiskStore

variable (fs : FileSystem)

/-- A call of the store. -/
def answer (s : DiskStore) : Request Bytes Bytes → Answer Bytes × DiskStore
  | .put key data =>
      let (stored, s) := s.put fs key data
      (.done stored, s)
  | .get key =>
      let (data, s) := s.get fs key
      (.found data, s)
  | .contains key => (.done (s.contains key), s)
  | .remove key =>
      let (removed, s) := s.remove key
      (.done removed, s)
  | .clear => (.done true, s.clear)
  | .count => (.number s.entries.length, s)
  | .size => (.number s.totalBytes, s)

/-- One call after another. -/
def answers (s : DiskStore) : List (Request Bytes Bytes) → List (Answer Bytes)
  | [] => []
  | request :: later =>
      let first := s.answer fs request
      first.1 :: answers first.2 later

/-- The access to a file that a request makes, if it comes to it, fails. -/
def failsAt (s : DiskStore) : Request Bytes Bytes → Bool
  | .put _ _ => fs.writeFails s.disk.accesses
  | .get _ => fs.readFails s.disk.accesses
  | .contains _ | .remove _ | .clear | .count | .size => false

/-- The requests, each with whether the file system fails it. -/
def withFailures (s : DiskStore) : List (Request Bytes Bytes) → List (Request Bytes Bytes × Bool)
  | [] => []
  | request :: later => (request, s.failsAt fs request) :: withFailures (s.answer fs request).2 later

/-- A key is one of those that have different files, its length fits the header of its file,
and the sizes add up in 64 bits. -/
def Within (keys : Set Bytes) (s : DiskStore) : Request Bytes Bytes → Prop
  | .put key data => key ∈ keys ∧ key.length < 2 ^ 32 ∧ sizes s.entries + weigh key data < 2 ^ 64
  | _ => True

/-- Every request of a run is within bounds. -/
def AllWithin (keys : Set Bytes) (s : DiskStore) : List (Request Bytes Bytes) → Prop
  | [] => True
  | request :: later =>
      s.Within keys request ∧ AllWithin keys (s.answer fs request).2 later

/-- The store holds what is on the shelf, in its order. -/
structure Shelves (keys : Set Bytes) (maxBytes : ℕ) (shelf : Shelf Bytes Bytes) (s : DiskStore) :
    Prop where
  limit : s.maxBytes = maxBytes
  mirrored : Mirrored keys s
  queue : s.queue = shelf.queue weigh
  bounded : shelf.weight weigh < 2 ^ 64
  files : ∀ item ∈ shelf, item.1.length < 2 ^ 32 ∧
    ∃ mtime, (pathFor item.1, ⟨encodeFile item.1 item.2, mtime⟩) ∈ s.disk.files

variable {fs} {keys : Set Bytes} {maxBytes : ℕ} {shelf : Shelf Bytes Bytes} {s : DiskStore}
  {key data : Bytes}

/-! ## What the store knows -/

theorem Shelves.sizes_eq (hs : Shelves keys maxBytes shelf s) :
    sizes s.entries = shelf.weight weigh := by
  rw [← weight_queue, hs.queue, Shelf.weight]

theorem Shelves.keys_perm (hs : Shelves keys maxBytes shelf s) :
    (shelf.map Prod.fst).Perm (s.entries.map Prod.fst) := by
  have hperm := keys_queue_perm s
  rw [hs.queue, Shelf.queue, List.map_map] at hperm
  exact hperm

theorem Shelves.length_eq (hs : Shelves keys maxBytes shelf s) :
    s.entries.length = shelf.length := by
  have hlength := hs.keys_perm.length_eq
  rw [List.length_map, List.length_map] at hlength
  exact hlength.symm

theorem Shelves.total_eq (hs : Shelves keys maxBytes shelf s) :
    s.totalBytes = shelf.weight weigh := by
  rw [hs.mirrored.accounted.total, hs.sizes_eq, Nat.mod_eq_of_lt hs.bounded]

theorem Shelves.contains_eq (hs : Shelves keys maxBytes shelf s) (key : Bytes) :
    s.contains key = (shelf.find key).isSome := by
  rw [Bool.eq_iff_iff, contains_iff, ← hs.keys_perm.mem_iff, Option.isSome_iff_ne_none, ne_eq,
    Shelf.find_eq_none_iff, List.mem_map]
  push Not
  rfl

/-- What is on the shelf can be read from the file of its key. -/
theorem Shelves.entry (hs : Shelves keys maxBytes shelf s) (hfind : shelf.find key = some data) :
    key.length < 2 ^ 32 ∧ ∃ e mtime, s.entries.lookup key = some e ∧
      e.size = weigh key data ∧
      s.disk.files.lookup e.path = some ⟨encodeFile key data, mtime⟩ := by
  obtain ⟨hlength, mtime, hfile⟩ := hs.files _ (Shelf.mem_of_find hfind)
  have hcontains := hs.contains_eq key
  rw [hfind, Option.isSome_some, contains] at hcontains
  obtain ⟨e, he⟩ := Option.isSome_iff_exists.mp hcontains
  obtain ⟨-, hpath, -⟩ := hs.mirrored.entries _ (mem_of_lookup he)
  have hsize : e.size = weigh key data := by
    have hqueue : (key, e.size) ∈ shelf.queue weigh := by
      rw [← hs.queue]
      exact mem_queue.mpr ⟨e, mem_of_lookup he, rfl⟩
    obtain ⟨item, hitem, heq⟩ := List.mem_map.mp hqueue
    obtain ⟨rfl, hweight⟩ := Prod.mk.inj heq
    have hkeys : (shelf.map Prod.fst).Nodup :=
      hs.keys_perm.nodup_iff.mpr hs.mirrored.accounted.keys
    have hsame := List.inj_on_of_nodup_map hkeys hitem (Shelf.mem_of_find hfind) rfl
    rw [← hweight, hsame]
  refine ⟨hlength, e, mtime, he, hsize, ?_⟩
  rw [hpath]
  exact lookup_of_mem hs.mirrored.names hfile

/-- Where files have only disappeared, those of the keys that are left are unchanged. -/
theorem Shelves.shrunk (hs : Shelves keys maxBytes shelf s) {after : DiskStore}
    {shelf' : Shelf Bytes Bytes} (hmirrored : Mirrored keys after)
    (hlimit : after.maxBytes = s.maxBytes)
    (hfiles : after.disk.files.Sublist s.disk.files) (hsub : shelf'.Sublist shelf)
    (hqueue : after.queue = shelf'.queue weigh) : Shelves keys maxBytes shelf' after := by
  refine ⟨hlimit.trans hs.limit, hmirrored, hqueue, ?_, fun item hitem => ?_⟩
  · exact (Queue.weight_sublist (hsub.map _)).trans_lt hs.bounded
  · obtain ⟨hlength, mtime, hfile⟩ := hs.files item (hsub.subset hitem)
    refine ⟨hlength, mtime, ?_⟩
    have hkey : item.1 ∈ after.entries.map Prod.fst := by
      refine (keys_queue_perm after).subset ?_
      rw [hqueue, Shelf.queue, List.map_map]
      exact List.mem_map_of_mem hitem
    obtain ⟨e, he, hname⟩ := List.mem_map.mp hkey
    obtain ⟨-, -, -, kept, mtime', -, hcopy, -⟩ := hmirrored.entries e he
    rw [hname] at hcopy
    have hsame : (pathFor item.1, (⟨encodeFile item.1 item.2, mtime⟩ : File)) =
        (pathFor item.1, ⟨kept, mtime'⟩) :=
      List.inj_on_of_nodup_map hs.mirrored.names hfile (hfiles.subset hcopy) rfl
    rw [hsame]
    exact hcopy

theorem Shelves.accessed (hs : Shelves keys maxBytes shelf s) :
    Shelves keys maxBytes shelf s.accessed :=
  ⟨hs.limit, ⟨hs.mirrored.accounted.ofDisk _, hs.mirrored.names, hs.mirrored.entries,
    hs.mirrored.files⟩, hs.queue, hs.bounded, hs.files⟩

/-! ## Calls -/

theorem Shelves.remove (hkeys : Set.InjOn pathFor keys) (hs : Shelves keys maxBytes shelf s)
    (key : Bytes) : Shelves keys maxBytes (shelf.without key) (s.remove key).2 := by
  refine hs.shrunk (hs.mirrored.remove hkeys key) (maxBytes_remove s key)
    (shrunk_remove s key).files List.filter_sublist ?_
  rw [queue_remove hs.mirrored.accounted, hs.queue, Shelf.queue_without]

theorem remove_fst (s : DiskStore) (key : Bytes) : (s.remove key).1 = s.contains key := by
  rw [DiskStore.remove, contains]
  cases s.entries.lookup key with
  | none => rfl
  | some e => rfl

/-- `put` makes the room that is made on the shelf. -/
theorem Shelves.cleared (hkeys : Set.InjOn pathFor keys) (hs : Shelves keys maxBytes shelf s)
    (hfits : sizes s.entries + weigh key data < 2 ^ 64) :
    Shelves keys maxBytes
      ((shelf.without key).makeRoom weigh (budget maxBytes) (weigh key data))
      (s.cleared key (weigh key data)) := by
  obtain ⟨-, hqueue, hmax⟩ := cleared_spec hs.mirrored.accounted key (weigh key data)
  have hfiles := (shrunk_remove s key).trans
    (shrunk_evictUntilFits (s.remove key).2 (weigh key data))
  have hsub : ((shelf.without key).makeRoom weigh (budget maxBytes) (weigh key data)).Sublist shelf :=
    (Shelf.makeRoom_sublist weigh _ _).trans List.filter_sublist
  refine hs.shrunk (hs.mirrored.cleared hkeys key _) hmax hfiles.files hsub ?_
  -- No sum that is compared with the limit reaches 64 bits.
  have hfull : ∀ total ≤ (shelf.without key).weight weigh,
      overfull s.maxBytes (weigh key data) total =
        (budget maxBytes).any (· < total + weigh key data) := by
    intro total htotal
    have hweight : (shelf.without key).weight weigh ≤ shelf.weight weigh :=
      Queue.weight_sublist (List.filter_sublist.map _)
    have hlt : total + weigh key data < 2 ^ 64 := by
      rw [hs.sizes_eq] at hfits
      omega
    rw [overfull, Nat.mod_eq_of_lt hlt, hs.limit, budget]
    by_cases hzero : maxBytes = 0
    · rw [if_pos hzero, hzero]
      rfl
    · rw [if_neg hzero, Option.any_some]
      exact decide_eq_decide.mpr (and_iff_right hzero)
  rw [hqueue, Shelf.queue_makeRoom weigh _ hfull, Shelf.queue_without, hs.queue]

theorem any_budget_iff (maxBytes weight : ℕ) :
    (budget maxBytes).any (· < weight) = true ↔ maxBytes ≠ 0 ∧ maxBytes < weight := by
  rw [budget]
  by_cases hzero : maxBytes = 0
  · simp [hzero]
  · simp [hzero]

theorem Shelves.put (hnoticed : fs.Notices s.disk.accesses) (hkeys : Set.InjOn pathFor keys)
    (hs : Shelves keys maxBytes shelf s) (hwithin : s.Within keys (.put key data)) :
    let shelved := shelf.put weigh (budget maxBytes) key data (s.failsAt fs (.put key data))
    (s.put fs key data).1 = shelved.1 ∧
      Shelves keys maxBytes shelved.2 (s.put fs key data).2 := by
  obtain ⟨hkey, hlength, hfits⟩ := hwithin
  have hcleared := hs.cleared hkeys hfits
  obtain rfl := hs.limit
  have hnew := cleared_new s key (weigh key data)
  have herased := hcleared.mirrored.erased_files hkeys hkey hnew
  have hlarge := any_budget_iff s.maxBytes (weigh key data)
  have hweigh : entrySize key data.length = weigh key data := rfl
  have hcases := put_cases_noticed hnoticed key data
  dsimp only at hcases ⊢
  rw [hweigh] at hcases
  rw [Shelf.put, failsAt]
  rcases hcases with ⟨hrefused, hput⟩ | ⟨hsmall, hfails, hput⟩ | ⟨hsmall, hwrites, hput⟩ <;>
    rw [hput]
  · rw [if_pos (hlarge.mpr hrefused)]
    exact ⟨rfl, hs⟩
  · rw [if_neg (mt hlarge.mp hsmall)]
    dsimp only
    rw [if_pos hfails]
    refine ⟨rfl, hcleared.limit, ⟨hcleared.mirrored.accounted.ofDisk _, ?_, ?_, ?_⟩,
      hcleared.queue, hcleared.bounded, ?_⟩ <;> dsimp only <;> rw [herased]
    · exact hcleared.mirrored.names
    · exact hcleared.mirrored.entries
    · exact hcleared.mirrored.files
    · exact hcleared.files
  · rw [if_neg (mt hlarge.mp hsmall)]
    dsimp only
    rw [if_neg (by rw [hwrites]; exact Bool.false_ne_true)]
    refine ⟨rfl, hcleared.limit, hcleared.mirrored.written hkeys hkey hnew List.prefix_rfl _,
      ?_, ?_, ?_⟩
    · rw [(written_spec hcleared.mirrored.accounted hnew _ _).2, Shelf.queue_append,
        hcleared.queue]
      rfl
    · have hroom : ((shelf.without key).makeRoom weigh (budget s.maxBytes)
          (weigh key data)).weight weigh ≤ shelf.weight weigh :=
        Queue.weight_sublist (((Shelf.makeRoom_sublist weigh _ _).trans List.filter_sublist).map _)
      rw [Shelf.weight, Shelf.queue_append, Queue.weight_append, ← Shelf.weight, ← Shelf.weight]
      rw [hs.sizes_eq] at hfits
      exact (Nat.add_le_add_right hroom _).trans_lt hfits
    · -- The other files are where they were, and the new one is in front of them.
      intro item hitem
      rcases List.mem_append.mp hitem with hold | hlast
      · obtain ⟨hlength', mtime, hfile⟩ := hcleared.files item hold
        rw [← herased] at hfile
        exact ⟨hlength', mtime, List.mem_cons_of_mem _ hfile⟩
      · rw [List.mem_singleton.mp hlast]
        exact ⟨hlength, _, List.mem_cons_self ..⟩

variable (fs) in
theorem Shelves.get (hkeys : Set.InjOn pathFor keys) (hs : Shelves keys maxBytes shelf s)
    (key : Bytes) :
    let shelved := shelf.get key (s.failsAt fs (.get key))
    (s.get fs key).1 = shelved.1 ∧ Shelves keys maxBytes shelved.2 (s.get fs key).2 := by
  have hcontains := hs.contains_eq key
  dsimp only
  rw [Shelf.get]
  cases hfind : shelf.find key with
  | none =>
      rw [hfind, Option.isSome_none, contains, Option.isSome_eq_false_iff,
        Option.isNone_iff_eq_none] at hcontains
      rcases get_cases fs s key with ⟨-, hget⟩ | ⟨e, he, -⟩
      · rw [hget]
        exact ⟨rfl, hs⟩
      · rw [hcontains] at he
        cases he
  | some data =>
      obtain ⟨hlength, e, mtime, he, hsize, hfile⟩ := hs.entry hfind
      dsimp only
      rw [failsAt]
      cases hfails : fs.readFails s.disk.accesses with
      | true =>
          -- Nothing is read, and the entry goes.
          have hback : ∀ e', s.readBack fs key e' = none := by
            intro e'
            rw [readBack, Disk.read, if_pos hfails]
            rfl
          rcases get_cases fs s key with ⟨hnone, -⟩ | ⟨e', -, ⟨-, hget⟩ | ⟨payload, hread, -⟩⟩
          · rw [he] at hnone
            cases hnone
          · rw [hget, if_pos rfl]
            exact ⟨rfl, hs.accessed.remove hkeys key⟩
          · rw [hback] at hread
            cases hread
      | false =>
          have hdata := get_of_file he hfails hfile hsize hlength
          have hmirrored : Mirrored keys (s.get fs key).2 := hs.mirrored.get hkeys key
          rw [if_neg Bool.false_ne_true]
          rcases get_cases fs s key with ⟨hnone, -⟩ | ⟨e', he', ⟨-, hget⟩ | ⟨payload, hread, hget⟩⟩
          · rw [he] at hnone
            cases hnone
          · rw [hget] at hdata
            cases hdata
          · rw [he, Option.some.injEq] at he'
            rw [hget] at hdata hmirrored ⊢
            have hqueue := (stamped_spec hs.mirrored.accounted he s.accessed.disk).2
            have hmem := Shelf.mem_of_find hfind
            have hmoved : ∀ item ∈ shelf.without key ++ [(key, data)], item ∈ shelf := by
              intro item hitem
              rcases List.mem_append.mp hitem with hold | hlast
              · exact (List.mem_filter.mp hold).1
              · rw [List.mem_singleton.mp hlast]
                exact hmem
            refine ⟨hdata, hs.limit, hmirrored, ?_, ?_, fun item hitem =>
              hs.files item (hmoved item hitem)⟩
            · rw [Shelf.queue_append, Shelf.queue_without, ← hs.queue]
              refine hqueue.trans ?_
              rw [hsize]
              rfl
            · have hsame := get_spec fs hs.mirrored.accounted key
              rw [hget] at hsame
              have hqueue' : (shelf.without key ++ [(key, data)]).queue weigh =
                  (s.queue.filter (·.1 ≠ key)) ++ [(key, e.size)] := by
                rw [Shelf.queue_append, Shelf.queue_without, ← hs.queue, hsize]
                rfl
              rw [Shelf.weight, hqueue', ← hqueue, weight_queue]
              refine hsame.2.1.trans_lt ?_
              rw [hs.sizes_eq]
              exact hs.bounded

theorem Shelves.clear (hkeys : Set.InjOn pathFor keys) (hs : Shelves keys maxBytes shelf s) :
    Shelves keys maxBytes [] s.clear := by
  have hmirrored : Mirrored keys s.clear :=
    clear_induction (fun _ other hs => Mirrored.remove hkeys hs other) hs.mirrored
  have hlimit : s.clear.maxBytes = s.maxBytes := by
    have hremove : ∀ (after : DiskStore) (other : Bytes), after.maxBytes = s.maxBytes →
        (after.remove other).2.maxBytes = s.maxBytes := by
      intro after other hafter
      rwa [maxBytes_remove]
    exact clear_induction hremove rfl
  have hfiles : s.clear.disk.files.Sublist s.disk.files := by
    have hremove : ∀ (after : DiskStore) (other : Bytes),
        after.disk.files.Sublist s.disk.files →
          (after.remove other).2.disk.files.Sublist s.disk.files :=
      fun after other hafter => (shrunk_remove after other).files.trans hafter
    exact clear_induction hremove (List.Sublist.refl _)
  refine hs.shrunk hmirrored hlimit hfiles (List.nil_sublist _) ?_
  rw [DiskStore.queue, entries_clear, byStamp_nil]
  rfl

/-! ## Runs -/

/-- Every call is answered as the shelf answers it. -/
theorem Shelves.answer (hnoticed : fs.Notices s.disk.accesses) (hkeys : Set.InjOn pathFor keys)
    (hs : Shelves keys maxBytes shelf s) {request : Request Bytes Bytes}
    (hwithin : s.Within keys request) :
    let shelved := shelf.answer weigh (budget maxBytes) (s.failsAt fs request) request
    (s.answer fs request).1 = shelved.1 ∧
      Shelves keys maxBytes shelved.2 (s.answer fs request).2 := by
  cases request with
  | put key data =>
      obtain ⟨hstored, hshelves⟩ := hs.put hnoticed hkeys hwithin
      exact ⟨congrArg Answer.done hstored, hshelves⟩
  | get key =>
      obtain ⟨hdata, hshelves⟩ := hs.get fs hkeys key
      exact ⟨congrArg Answer.found hdata, hshelves⟩
  | contains key => exact ⟨congrArg Answer.done (hs.contains_eq key), hs⟩
  | remove key =>
      refine ⟨congrArg Answer.done ?_, hs.remove hkeys key⟩
      exact (remove_fst s key).trans (hs.contains_eq key)
  | clear => exact ⟨rfl, hs.clear hkeys⟩
  | count => exact ⟨congrArg Answer.number hs.length_eq, hs⟩
  | size => exact ⟨congrArg Answer.number hs.total_eq, hs⟩

theorem Shelves.answers (hnoticed : ∀ access, fs.Notices access)
    (hkeys : Set.InjOn pathFor keys) (hs : Shelves keys maxBytes shelf s)
    {requests : List (Request Bytes Bytes)} (hwithin : s.AllWithin fs keys requests) :
    s.answers fs requests =
      shelf.answers weigh (budget maxBytes) (s.withFailures fs requests) := by
  induction requests generalizing s shelf with
  | nil => rfl
  | cons request later ih =>
      obtain ⟨hfirst, hshelves⟩ := hs.answer (hnoticed _) hkeys hwithin.1
      rw [DiskStore.answers, withFailures, Shelf.answers, hfirst]
      exact congrArg _ (ih hshelves hwithin.2)

end DiskStore

end Reame.Cache
