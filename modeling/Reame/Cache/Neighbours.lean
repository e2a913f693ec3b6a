import Reame.Cache.StoreRuns

/-!
# What other keys do to an entry

Entries are apart in the index and files are apart by their names, which are hashes of
the keys.  Without a budget an entry stays what it is through whatever is done with other
keys, as long as none of them has its file (`Undisturbed`, `undisturbed_run`).

The key in front of the payload keeps `get` from returning what another key has put.  It
does not keep the other key off the file: `get` takes what it finds there for a broken
entry of its own, and `remove` deletes the file.  So the condition is also necessary, with
the one that all of the file was written (`neighbours_iff`), and of two keys with one hash the
first to be put takes the data of the second with it when it is read (`get_deletes_neighbour`).
-/

namespace Reame.Cache

/-! ## Association lists -/

section Lookup

variable {β : Type*} {key other : Bytes}

theorem lookup_filter_of_pos {p : Bytes → Bool} (hkey : p key = true) (items : List (Bytes × β)) :
    (items.filter fun item => p item.1).lookup key = items.lookup key := by
  induction items with
  | nil => rfl
  | cons item items ih =>
      by_cases heq : key = item.1
      · rw [List.filter_cons_of_pos (heq ▸ hkey), List.lookup_cons, List.lookup_cons, ih]
      · rw [List.lookup_cons, beq_eq_false_iff_ne.mpr heq, List.filter_cons]
        split
        · rw [List.lookup_cons, beq_eq_false_iff_ne.mpr heq, ih]
        · exact ih

theorem lookup_filter_of_neg {p : Bytes → Bool} (hkey : p key = false) (items : List (Bytes × β)) :
    (items.filter fun item => p item.1).lookup key = none := by
  refine List.lookup_eq_none_iff.mpr fun item hitem => ?_
  rw [bne_iff_ne]
  rintro rfl
  rw [(List.mem_filter.mp hitem).2] at hkey
  cases hkey

theorem lookup_filter_ne (hne : key ≠ other) (items : List (Bytes × β)) :
    (items.filter (·.1 ≠ other)).lookup key = items.lookup key :=
  lookup_filter_of_pos (p := fun item => decide (item ≠ other)) (by simpa using hne) items

theorem lookup_filter_self (items : List (Bytes × β)) :
    (items.filter (·.1 ≠ key)).lookup key = none :=
  lookup_filter_of_neg (p := fun item => decide (item ≠ key)) (by simp) items

end Lookup

namespace DiskStore

variable {fs : FileSystem} {s : DiskStore} {key other data : Bytes}

theorem lookup_stamp (entries : List (Bytes × Entry)) (key other : Bytes) (recency : ℕ) :
    (stamp entries other recency).lookup key = (entries.lookup key).map fun e =>
      if key = other then { e with recency } else e := by
  induction entries with
  | nil => rfl
  | cons item entries ih =>
      obtain ⟨head, e⟩ := item
      rw [stamp, List.map_cons, ← stamp]
      by_cases heq : key = head
      · subst heq
        split
        · simp
        · simp
      · have hhead : (if head = other then (head, { e with recency }) else (head, e)).1 = head := by
          split <;> rfl
        rw [List.lookup_cons, List.lookup_cons, hhead, beq_eq_false_iff_ne.mpr heq]
        exact ih

theorem lookup_remove_ne (hne : key ≠ other) :
    (s.remove other).2.entries.lookup key = s.entries.lookup key := by
  rw [entries_remove, lookup_filter_ne hne]

theorem cleared_of_unlimited (hmax : s.maxBytes = 0) (key : Bytes) (incoming : ℕ) :
    s.cleared key incoming = (s.remove key).2 := by
  rw [cleared, evictUntilFits, if_pos (by rwa [maxBytes_remove])]

/-- A store without a budget stays one, if it is reopened without one. -/
theorem unlimited_run (hmax : s.maxBytes = 0) {ops : List StoreOp}
    (hops : ∀ maxBytes, .reopen maxBytes ∈ ops → maxBytes = 0) : (s.run fs ops).maxBytes = 0 := by
  induction ops generalizing s with
  | nil => exact hmax
  | cons op ops ih =>
      refine ih ?_ fun maxBytes hmem => hops maxBytes (List.mem_cons_of_mem _ hmem)
      cases op with
      | put key data =>
          have hput := put_cases fs s key data
          dsimp only at hput
          rw [cleared_of_unlimited hmax] at hput
          show (s.put fs key data).2.maxBytes = 0
          rcases hput with ⟨-, hput⟩ | ⟨-, -, hput⟩ | ⟨-, _, -, hput⟩ <;> rw [hput]
          · exact hmax
          · rwa [maxBytes_remove]
          · rwa [written, maxBytes_remove]
      | get key =>
          show (s.get fs key).2.maxBytes = 0
          rcases get_cases fs s key with ⟨-, hget⟩ | ⟨e, -, ⟨-, hget⟩ | ⟨payload, -, hget⟩⟩ <;>
            rw [hget]
          · exact hmax
          · rwa [maxBytes_remove]
          · exact hmax
      | contains key => exact hmax
      | remove key => exact (maxBytes_remove s key).trans hmax
      | clear =>
          have hremove : ∀ (s : DiskStore) (key : Bytes), s.maxBytes = 0 →
              (s.remove key).2.maxBytes = 0 := fun s key hmax => by rwa [maxBytes_remove]
          exact clear_induction hremove hmax
      | reopen maxBytes => exact hops maxBytes (List.mem_cons_self ..)

/-- Without a budget `put` leaves the other entries alone. -/
theorem lookup_put_ne (hmax : s.maxBytes = 0) (hne : key ≠ other) (data : Bytes) :
    (s.put fs other data).2.entries.lookup key = s.entries.lookup key := by
  have hcleared := cleared_of_unlimited hmax other (entrySize other data.length)
  have hput := put_cases fs s other data
  dsimp only at hput
  rw [hcleared] at hput
  rcases hput with ⟨-, hput⟩ | ⟨-, -, hput⟩ | ⟨-, _, -, hput⟩ <;> rw [hput]
  · exact lookup_remove_ne hne
  · rw [written, List.lookup_cons, beq_eq_false_iff_ne.mpr hne]
    exact (lookup_filter_ne hne _).trans (lookup_remove_ne hne)

/-! ## An entry that is left alone -/

/-- The entry of a key and its file are what `put` has made of them, and the entries of certain
other keys are not on its file. -/
structure Undisturbed (others : Set Bytes) (key data : Bytes) (s : DiskStore) : Prop where
  unlimited : s.maxBytes = 0
  entry : ∃ e, s.entries.lookup key = some e ∧ e.path = pathFor key ∧
    e.size = entrySize key data.length
  file : ∃ mtime, s.disk.files.lookup (pathFor key) = some ⟨encodeFile key data, mtime⟩
  others : ∀ other ∈ others, ∀ e, s.entries.lookup other = some e → e.path ≠ pathFor key

/-- The keys have other names and other files. -/
def Elsewhere (others : Set Bytes) (key : Bytes) : Prop :=
  ∀ other ∈ others, other ≠ key ∧ pathFor other ≠ pathFor key

variable {others : Set Bytes}

theorem Undisturbed.ofAccesses (hs : Undisturbed others key data s) (accesses : ℕ) :
    Undisturbed others key data { s with disk := { s.disk with accesses } } :=
  ⟨hs.unlimited, hs.entry, hs.file, hs.others⟩

theorem Undisturbed.remove (hothers : Elsewhere others key) (hs : Undisturbed others key data s)
    (hother : other ∈ others) : Undisturbed others key data (s.remove other).2 := by
  cases hlookup : s.entries.lookup other with
  | none =>
      rw [DiskStore.remove, hlookup]
      exact hs
  | some e =>
      have hpath := hs.others other hother e hlookup
      obtain ⟨entry, hentry, hentry'⟩ := hs.entry
      obtain ⟨mtime, hfile⟩ := hs.file
      have hremove : (s.remove other).2 = { s with
          disk := s.disk.remove e.path
          totalBytes := (s.totalBytes + (2 ^ 64 - e.size % 2 ^ 64)) % 2 ^ 64
          entries := s.entries.filter (·.1 ≠ other) } := by
        rw [DiskStore.remove, hlookup]
      rw [hremove]
      refine ⟨hs.unlimited, ⟨entry, ?_, hentry'⟩, ⟨mtime, ?_⟩, fun third hthird e' he' => ?_⟩
      · exact (lookup_filter_ne (hothers other hother).1.symm _).trans hentry
      · exact (lookup_filter_ne hpath.symm _).trans hfile
      · by_cases heq : third = other
        · rw [heq, lookup_filter_self] at he'
          cases he'
        · rw [lookup_filter_ne heq] at he'
          exact hs.others third hthird e' he'

theorem Undisturbed.put (hothers : Elsewhere others key) (hs : Undisturbed others key data s)
    (hother : other ∈ others) (data' : Bytes) :
    Undisturbed others key data (s.put fs other data').2 := by
  have hremoved := hs.remove hothers hother
  have hname : pathFor key ≠ pathFor other := (hothers other hother).2.symm
  rw [← cleared_of_unlimited hs.unlimited other (entrySize other data'.length)] at hremoved
  generalize hcleared : s.cleared other (entrySize other data'.length) = cleared at hremoved
  obtain ⟨e, he, he'⟩ := hremoved.entry
  obtain ⟨mtime, hfile⟩ := hremoved.file
  have herased : (erased cleared.disk (pathFor other)).files.lookup (pathFor key) =
      some ⟨encodeFile key data, mtime⟩ := (lookup_filter_ne hname _).trans hfile
  have hput := put_cases fs s other data'
  dsimp only at hput
  rw [hcleared] at hput
  rcases hput with ⟨-, hput⟩ | ⟨-, -, hput⟩ | ⟨-, _, -, hput⟩ <;> rw [hput]
  · exact hs
  · exact ⟨hremoved.unlimited, hremoved.entry, ⟨mtime, herased⟩, hremoved.others⟩
  · refine ⟨hremoved.unlimited, ⟨e, ?_, he'⟩, ⟨mtime, ?_⟩, fun third hthird e' he' => ?_⟩
    · rw [written, List.lookup_cons, beq_eq_false_iff_ne.mpr (hothers other hother).1.symm]
      exact (lookup_filter_ne (hothers other hother).1.symm _).trans he
    · rw [written, List.lookup_cons, beq_eq_false_iff_ne.mpr hname]
      exact herased
    · rw [written, List.lookup_cons] at he'
      by_cases heq : third = other
      · rw [beq_iff_eq.mpr heq] at he'
        rw [← Option.some.inj he']
        exact hname.symm
      · rw [beq_eq_false_iff_ne.mpr heq] at he'
        exact hremoved.others third hthird e' ((lookup_filter_ne heq _).symm.trans he')

theorem Undisturbed.stamped (hs : Undisturbed others key data s) (other : Bytes) (disk : Disk)
    (hdisk : disk.files = s.disk.files) :
    Undisturbed others key data { s with
      disk, entries := stamp s.entries other s.nextRecency, nextRecency := s.nextRecency + 1 } := by
  obtain ⟨e, he, hpath, hsize⟩ := hs.entry
  refine ⟨hs.unlimited, ⟨_, (lookup_stamp ..).trans (congrArg _ he), ?_⟩, hdisk ▸ hs.file,
    fun third hthird e' he' => ?_⟩
  · split <;> exact ⟨hpath, hsize⟩
  · obtain ⟨before, hbefore, rfl⟩ := Option.map_eq_some_iff.mp ((lookup_stamp ..).symm.trans he')
    have hne := hs.others third hthird before hbefore
    split <;> exact hne

theorem Undisturbed.get (hothers : Elsewhere others key) (hs : Undisturbed others key data s)
    (hother : other ∈ others) : Undisturbed others key data (s.get fs other).2 := by
  rcases get_cases fs s other with ⟨-, hget⟩ | ⟨e, -, ⟨-, hget⟩ | ⟨payload, -, hget⟩⟩ <;> rw [hget]
  · exact hs
  · exact (hs.ofAccesses _).remove hothers hother
  · exact hs.stamped other _ rfl

/-- The entry is read back, and stays. -/
theorem Undisturbed.get_self (hs : Undisturbed others key data s)
    (hread : fs.readFails s.disk.accesses = false) (hkey : key.length < 2 ^ 32) :
    (s.get fs key).1 = some data ∧ Undisturbed others key data (s.get fs key).2 := by
  obtain ⟨e, he, hpath, hsize⟩ := hs.entry
  obtain ⟨mtime, hfile⟩ := hs.file
  have hdata := get_of_file he hread (hpath ▸ hfile) hsize hkey
  refine ⟨hdata, ?_⟩
  rcases get_cases fs s key with ⟨-, hget⟩ | ⟨e, -, ⟨-, hget⟩ | ⟨payload, -, hget⟩⟩
  · rw [hget] at hdata
    cases hdata
  · rw [hget] at hdata
    cases hdata
  · rw [hget]
    exact hs.stamped key _ rfl

/-- A successful `put` without a budget adds an entry, and the front of its file. -/
theorem put_unlimited (hmax : s.maxBytes = 0) (hput : (s.put fs key data).1 = true) :
    (s.put fs key data).2.maxBytes = 0 ∧ ∃ kept,
      fs.left s.disk.accesses (encodeFile key data) = some kept ∧
      (s.put fs key data).2.entries.lookup key =
        some ⟨pathFor key, entrySize key data.length, s.nextRecency⟩ ∧
      (s.put fs key data).2.disk.files.lookup (pathFor key) =
        some ⟨kept, fs.mtime s.disk.accesses⟩ := by
  have hcases := put_cases fs s key data
  have hnext : (s.remove key).2.nextRecency = s.nextRecency := nextRecency_remove s key
  dsimp only at hcases
  rw [cleared_of_unlimited hmax] at hcases
  rcases hcases with ⟨hlarge, -⟩ | ⟨-, -, hfails⟩ | ⟨-, kept, hleft, hstored⟩
  · exact absurd hmax hlarge.1
  · rw [hfails] at hput
    cases hput
  · rw [hstored]
    refine ⟨by rwa [written, maxBytes_remove], kept, hleft, ?_, List.lookup_cons_self⟩
    rw [written, List.lookup_cons_self, hnext]

/-- What `put` makes of an entry, when no other entry is on its file. -/
theorem undisturbed_of_put (hothers : ∀ other ∈ others, other ≠ key) (hmax : s.maxBytes = 0)
    (hpaths : ∀ other ∈ others, ∀ e, s.entries.lookup other = some e → e.path ≠ pathFor key)
    (hput : (s.put fs key data).1 = true) (hwhole : s.WritesWhole fs key data) :
    Undisturbed others key data (s.put fs key data).2 := by
  obtain ⟨hunlimited, kept, hleft, hentry, hfile⟩ := put_unlimited hmax hput
  obtain rfl : encodeFile key data = kept := Option.some.inj (hwhole.symm.trans hleft)
  refine ⟨hunlimited, ⟨_, hentry, rfl, rfl⟩, ⟨_, hfile⟩, fun other hother e he => ?_⟩
  rw [lookup_put_ne hmax (hothers other hother)] at he
  exact hpaths other hother e he

/-! ## Runs -/

/-- An operation that `get`s, `put`s or `remove`s a key of a set. -/
def OnKeys (keys : Set Bytes) : StoreOp → Prop
  | .put key _ | .get key | .remove key => key ∈ keys
  | .contains _ | .clear | .reopen _ => False

theorem undisturbed_run (fs : FileSystem) (hothers : Elsewhere others key)
    (hs : Undisturbed others key data s) {ops : List StoreOp} (hops : ∀ op ∈ ops, OnKeys others op) :
    Undisturbed others key data (s.run fs ops) := by
  induction ops generalizing s with
  | nil => exact hs
  | cons op ops ih =>
      refine ih ?_ fun op' hop' => hops op' (List.mem_cons_of_mem _ hop')
      have hop := hops op (List.mem_cons_self ..)
      cases op with
      | put other data' => exact hs.put hothers hop data'
      | get other => exact hs.get hothers hop
      | remove other => exact hs.remove hothers hop
      | contains | clear | reopen => exact hop.elim

/-- Whatever is done with another key, the data of a key are read back. -/
def LeftAlone (fs : FileSystem) (other key data : Bytes) (s : DiskStore) : Prop :=
  ∀ ops : List StoreOp, (∀ op ∈ ops, OnKeys {other} op) →
    ((s.run fs ops).get fs key).1 = some data

theorem storedKey_length {content : Bytes} (hstored : storedKey content = some key) :
    key.length < 2 ^ 32 := by
  unfold storedKey at hstored
  dsimp only at hstored
  split at hstored
  · cases hstored
  · have hvalue := LittleEndian.value_lt (content.take 4)
    have hheader : 256 ^ (content.take 4).length ≤ 256 ^ 4 :=
      Nat.pow_le_pow_right (by norm_num) (List.length_take_le ..)
    rw [← Option.some.inj hstored, List.length_take]
    omega

theorem length_of_get (hget : (s.get fs key).1 = some data) : key.length < 2 ^ 32 := by
  obtain ⟨e, file, -, -, hread⟩ := get_eq_some hget
  exact storedKey_length (readEntry_spec hread).1

/-- Without its file an entry is not read back. -/
theorem get_of_no_file (hpaths : ∀ e, s.entries.lookup key = some e →
    s.disk.files.lookup e.path = none) : (s.get fs key).1 = none := by
  rcases get_cases fs s key with ⟨-, hget⟩ | ⟨e, hlookup, ⟨-, hget⟩ | ⟨payload, hback, hget⟩⟩
  · rw [hget]
  · rw [hget]
  · rw [readBack, Disk.read, hpaths e hlookup, Option.map_none, ite_self, Option.bind_none] at hback
    cases hback

theorem lookup_of_sublist {β : Type*} {items items' : List (Bytes × β)} (hsub : items'.Sublist items)
    (hnone : items.lookup key = none) : items'.lookup key = none :=
  List.lookup_eq_none_iff.mpr fun item hitem =>
    List.lookup_eq_none_iff.mp hnone item (hsub.subset hitem)

/-- `put` and `remove` of a key leave nothing in its file. -/
theorem no_file_of_removed (hmax : s.maxBytes = 0) (other data : Bytes) :
    ((s.put fs other data).2.remove other).2.disk.files.lookup (pathFor other) = none := by
  rcases put_cases fs s other data with ⟨hlarge, -⟩ | ⟨-, -, hput⟩ | ⟨-, _, -, hput⟩
  · exact absurd hmax hlarge.1
  · rw [hput]
    exact lookup_of_sublist (shrunk_remove _ _).files (lookup_filter_self _)
  · rw [hput, DiskStore.remove, written, List.lookup_cons_self]
    exact lookup_filter_self _

/-- Data that are read back after `put` are all on the disk. -/
theorem writesWhole_of_get (hmax : s.maxBytes = 0) (hput : (s.put fs key data).1 = true)
    {payload : Bytes} (hget : ((s.put fs key data).2.get fs key).1 = some payload) :
    s.WritesWhole fs key data := by
  obtain ⟨-, kept, hleft, hentry, hfile⟩ := put_unlimited hmax hput
  obtain ⟨e, file, hlookup, hfound, hread⟩ := get_eq_some hget
  rw [hentry, Option.some.injEq] at hlookup
  subst hlookup
  rw [hfile, Option.some.injEq] at hfound
  subst hfound
  have hsize : entrySize key data.length - 4 - key.length = data.length := by
    rw [entrySize]
    omega
  dsimp only at hread
  rw [hsize] at hread
  rw [WritesWhole, hleft, whole_of_read (FileSystem.left_spec hleft).1 hread]

/-- Without a budget the data of a key are safe from what is done with another key exactly if all
of them are on the disk, the key fits the header and the other one has neither its file name nor an
entry on its file. -/
theorem neighbours_iff (fs : FileSystem) (hread : ∀ access, fs.readFails access = false)
    (s : DiskStore) (hmax : s.maxBytes = 0) (key other data : Bytes) (hne : other ≠ key)
    (hput : (s.put fs key data).1 = true) :
    LeftAlone fs other key data (s.put fs key data).2 ↔
      s.WritesWhole fs key data ∧ key.length < 2 ^ 32 ∧ pathFor other ≠ pathFor key ∧
        ∀ e, s.entries.lookup other = some e → e.path ≠ pathFor key := by
  obtain ⟨hmaxPut, -, -, hentry, -⟩ := put_unlimited hmax hput
  constructor
  · intro halone
    have hfirst := halone [] (by simp)
    refine ⟨writesWhole_of_get hmax hput hfirst, length_of_get hfirst, fun hname => ?_,
      fun e' he' hpath' => ?_⟩
    · have hget := halone [.put other [], .remove other] (by simp [OnKeys])
      have hnone : ((((s.put fs key data).2.put fs other []).2.remove other).2.get fs key).1 =
          none := by
        refine get_of_no_file fun found hfound => ?_
        rw [lookup_remove_ne hne.symm, lookup_put_ne hmaxPut hne.symm, hentry] at hfound
        rw [← Option.some.inj hfound, ← hname]
        exact no_file_of_removed hmaxPut other []
      exact absurd (hnone.symm.trans hget) (by simp)
    · have hget := halone [.remove other] (by simp [OnKeys])
      have hnone : (((s.put fs key data).2.remove other).2.get fs key).1 = none := by
        refine get_of_no_file fun found hfound => ?_
        rw [lookup_remove_ne hne.symm, hentry] at hfound
        rw [← Option.some.inj hfound, ← hpath', DiskStore.remove, lookup_put_ne hmax hne, he']
        exact lookup_filter_self _
      exact absurd (hnone.symm.trans hget) (by simp)
  · rintro ⟨hwhole, hkey, hname, hentries⟩ ops hops
    have hothers : Elsewhere {other} key := by
      rintro _ rfl
      exact ⟨hne, hname⟩
    have hstored : Undisturbed {other} key data (s.put fs key data).2 :=
      undisturbed_of_put (fun other hother => (hothers other hother).1) hmax
        (by rintro _ rfl; exact hentries) hput hwhole
    exact ((undisturbed_run fs hothers hstored hops).get_self (hread _) hkey).1

/-- Two keys with different files. -/
theorem neighbours_small :
    let s := reopen .faultless 0 {}
    LeftAlone .faultless (ascii "b") (ascii "a") (ascii "1")
        (s.put .faultless (ascii "a") (ascii "1")).2 ↔
      s.WritesWhole .faultless (ascii "a") (ascii "1") ∧ (ascii "a").length < 2 ^ 32 ∧
        pathFor (ascii "b") ≠ pathFor (ascii "a") ∧
        ∀ e, s.entries.lookup (ascii "b") = some e → e.path ≠ pathFor (ascii "a") :=
  neighbours_iff .faultless (fun _ => rfl) (reopen .faultless 0 {}) rfl (ascii "a") (ascii "b")
    (ascii "1") (by decide) (by decide +kernel)

/-- Two keys with one hash: reading the first deletes what has been put under the second. -/
theorem get_deletes_neighbour :
    let first := ascii "!0IC=VloaY"
    let second := ascii "QvXtM>@Fp%"
    let s := (reopen .faultless 0 {}).run .faultless [.put first (ascii "1")]
    let stored := s.put .faultless second (ascii "2")
    first ≠ second ∧ stored.1 = true ∧
      (stored.2.get .faultless second).1 = some (ascii "2") ∧
      ((stored.2.run .faultless [.get first]).get .faultless second).1 = none := by
  decide +kernel

end DiskStore

end Reame.Cache
