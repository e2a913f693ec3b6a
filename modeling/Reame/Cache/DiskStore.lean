import Reame.Cache.Serializer
import Reame.Foundation.LittleEndian
import Mathlib.Data.List.MinMax

/-!
# The disk store

`DiskCacheStore`: one file per entry in a directory, named by the hash of the key, with
the key in front of the payload; an index in memory with sizes and recency stamps; a
byte budget kept by evicting the least recently used entries.

The directory is a list of named files with distinct names.  What the operating system
decides is in `FileSystem`: which reads and writes fail, what is left of a file whose
writing fails and the modification times it stamps.  `put` looks at the stream before it is
closed: a write that fails only when the buffer of the stream is flushed is a success to it.
The `std::map` of entries is an association list: its order is only visible in
`std::min_element` among equal recency stamps, and stamps are never equal.
-/

namespace Reame.Cache

/-- A file of the cache directory. -/
structure File where
  content : Bytes
  mtime : ℕ
deriving DecidableEq, Repr

/-- The behaviour of the file system that the store does not control, by the number of
the access. -/
structure FileSystem where
  readFails : ℕ → Bool
  writeFails : ℕ → Bool
  /-- Of a write that fails: `none` when the stream says so before it is closed, and
  otherwise how much of the content is in the file. -/
  leaves : ℕ → Option ℕ
  mtime : ℕ → ℕ

namespace FileSystem

/-- No access fails, and the clock goes on with every access. -/
def faultless : FileSystem := ⟨fun _ => false, fun _ => false, fun _ => none, id⟩

/-- What a write that passes for a success leaves in the file. -/
def left (fs : FileSystem) (access : ℕ) (content : Bytes) : Option Bytes :=
  if fs.writeFails access then (fs.leaves access).map fun n => content.take n else some content

/-- If the write fails, it does not do so unnoticed. -/
def Notices (fs : FileSystem) (access : ℕ) : Prop :=
  fs.writeFails access = true → fs.leaves access = none

instance (fs : FileSystem) (access : ℕ) : Decidable (fs.Notices access) :=
  inferInstanceAs (Decidable (_ → _))

variable {fs : FileSystem} {access : ℕ} {content : Bytes}

theorem left_of_succeeds (hwrite : fs.writeFails access = false) :
    fs.left access content = some content := by
  simp [left, hwrite]

theorem notices_of_succeeds (hwrite : fs.writeFails access = false) : fs.Notices access := by
  simp [Notices, hwrite]

/-- What is left is the front of the content, and without unnoticed failures all of it. -/
theorem left_spec {kept : Bytes} (hleft : fs.left access content = some kept) :
    kept <+: content ∧ (fs.Notices access → fs.writeFails access = false ∧ kept = content) := by
  unfold left at hleft
  split at hleft
  · rename_i hfails
    obtain ⟨n, hleaves, rfl⟩ := Option.map_eq_some_iff.mp hleft
    have hfront : content.take n <+: content := List.take_prefix n content
    refine ⟨hfront, fun hnoticed => ?_⟩
    rw [hnoticed hfails] at hleaves
    cases hleaves
  · rename_i hwrite
    cases hleft
    exact ⟨List.prefix_rfl, fun _ => ⟨by simpa using hwrite, rfl⟩⟩

theorem writeFails_of_left (hleft : fs.left access content = none) :
    fs.writeFails access = true := by
  by_contra hwrite
  rw [left_of_succeeds (by simpa using hwrite)] at hleft
  cases hleft

end FileSystem

/-- The cache directory, and the number of accesses made to its files. -/
structure Disk where
  files : List (Bytes × File) := []
  accesses : ℕ := 0
deriving DecidableEq, Repr

/-- `DiskCacheStore::Entry`. -/
structure Entry where
  path : Bytes
  size : ℕ
  recency : ℕ
deriving DecidableEq, Repr

/-- `DiskCacheStore`, with the directory it works on. -/
structure DiskStore where
  maxBytes : ℕ
  entries : List (Bytes × Entry)
  totalBytes : ℕ
  nextRecency : ℕ
  disk : Disk
deriving DecidableEq, Repr

/-- `hex64`. -/
def hex64 (v : UInt64) : Bytes :=
  (List.range 16).map fun i => (ascii "0123456789abcdef").getD (v.toNat / 16 ^ (15 - i) % 16) 0

@[simp] theorem length_hex64 (v : UInt64) : (hex64 v).length = 16 := by simp [hex64]

/-- A number below a power is known by its digits. -/
theorem mod_pow_inj {b v w : ℕ} (n : ℕ) (hdigits : ∀ i < n, v / b ^ i % b = w / b ^ i % b) :
    v % b ^ n = w % b ^ n := by
  induction n with
  | zero => simp [Nat.mod_one]
  | succ n ih =>
      rw [pow_succ, Nat.mod_mul, Nat.mod_mul, ih fun i hi => hdigits i (by omega),
        hdigits n (Nat.lt_succ_self n)]

theorem hex64_inj {v w : UInt64} (heq : hex64 v = hex64 w) : v = w := by
  have htable : ∀ i < 16, ∀ j < 16, (ascii "0123456789abcdef").getD i 0 =
      (ascii "0123456789abcdef").getD j 0 → i = j := by decide
  have hdigits : ∀ i < 16, v.toNat / 16 ^ i % 16 = w.toNat / 16 ^ i % 16 := by
    intro i hi
    have hplace := List.map_inj_left.mp heq (15 - i) (List.mem_range.mpr (by omega))
    have hindex : 15 - (15 - i) = i := by omega
    rw [hindex] at hplace
    exact htable _ (Nat.mod_lt _ (by decide)) _ (Nat.mod_lt _ (by decide)) hplace
  have hmod := mod_pow_inj 16 hdigits
  have hpow : 16 ^ 16 = 2 ^ 64 := by norm_num
  rw [hpow, Nat.mod_eq_of_lt v.toNat_lt, Nat.mod_eq_of_lt w.toNat_lt] at hmod
  exact UInt64.toNat_inj.mp hmod

/-- The name of the file of a key. -/
def pathFor (key : Bytes) : Bytes := hex64 (checksum key) ++ ascii ".kvc"

/-- `entry_size`. -/
def entrySize (key : Bytes) (payload : ℕ) : ℕ := 4 + key.length + payload

/-- File layout: `u32` key length, key bytes, payload. -/
def encodeFile (key data : Bytes) : Bytes := LittleEndian.bytes 4 key.length ++ key ++ data

/-- The key in front of a file: `none` when the file is too short for it. -/
def storedKey (content : Bytes) : Option Bytes :=
  let keyLen := LittleEndian.value (content.take 4)
  let key := (content.drop 4).take keyLen
  if content.length < 4 ∨ key.length < keyLen then none else some key

/-- What `get` reads from a file: `none` unless it holds the key and `size` bytes more. -/
def readEntry (content key : Bytes) (size : ℕ) : Option Bytes :=
  if storedKey content = some key then
    let payload := (content.drop (4 + key.length)).take size
    if payload.length < size then none else some payload
  else none

/-- Remove a file, if it is there. -/
def Disk.remove (disk : Disk) (path : Bytes) : Disk :=
  { disk with files := disk.files.filter (·.1 ≠ path) }

/-- Overwrite a file; it is removed if the stream is in error before it is closed. -/
def Disk.write (fs : FileSystem) (disk : Disk) (path content : Bytes) : Bool × Disk :=
  let cleared := { disk.remove path with accesses := disk.accesses + 1 }
  match fs.left disk.accesses content with
  | none => (false, cleared)
  | some kept =>
      (true, { cleared with files := (path, ⟨kept, fs.mtime disk.accesses⟩) :: cleared.files })

/-- The content of a file; `none` when it is missing or cannot be read. -/
def Disk.read (fs : FileSystem) (disk : Disk) (path : Bytes) : Option Bytes × Disk :=
  (if fs.readFails disk.accesses then none else (disk.files.lookup path).map File.content,
    { disk with accesses := disk.accesses + 1 })

namespace DiskStore

variable (fs : FileSystem)

/-! ## Operations -/

/-- `remove`. -/
def remove (s : DiskStore) (key : Bytes) : Bool × DiskStore :=
  match s.entries.lookup key with
  | none => (false, s)
  | some e =>
      (true, { s with
        disk := s.disk.remove e.path
        totalBytes := (s.totalBytes + (2 ^ 64 - e.size % 2 ^ 64)) % 2 ^ 64
        entries := s.entries.filter (·.1 ≠ key) })

/-- `contains`. -/
def contains (s : DiskStore) (key : Bytes) : Bool := (s.entries.lookup key).isSome

/-- The key `std::min_element` finds: that of the least recently used entry. -/
def lru (entries : List (Bytes × Entry)) : Option Bytes :=
  (entries.argmin fun item => item.2.recency).map Prod.fst

/-- The loop of `evict_until_fits`.  Every iteration removes an entry, so as many
iterations as there are entries are enough. -/
def evictLoop (incoming : ℕ) : ℕ → DiskStore → DiskStore
  | 0, s => s
  | fuel + 1, s =>
      match lru s.entries with
      | none => s
      | some key =>
          if s.maxBytes < (s.totalBytes + incoming) % 2 ^ 64 then
            evictLoop incoming fuel (s.remove key).2
          else s

/-- `evict_until_fits`. -/
def evictUntilFits (s : DiskStore) (incoming : ℕ) : DiskStore :=
  if s.maxBytes = 0 then s else evictLoop incoming s.entries.length s

/-- `put`. -/
def put (s : DiskStore) (key data : Bytes) : Bool × DiskStore :=
  let incoming := entrySize key data.length
  if s.maxBytes ≠ 0 ∧ s.maxBytes < incoming then (false, s)
  else
    let s := (s.remove key).2.evictUntilFits incoming
    let path := pathFor key
    match s.disk.write fs path (encodeFile key data) with
    | (false, disk) => (false, { s with disk })
    | (true, disk) =>
        (true, { s with
          disk
          entries := (key, ⟨path, incoming, s.nextRecency⟩) :: s.entries.filter (·.1 ≠ key)
          totalBytes := (s.totalBytes + incoming) % 2 ^ 64
          nextRecency := s.nextRecency + 1 })

/-- `entries_.at(key).recency = recency`. -/
def stamp (entries : List (Bytes × Entry)) (key : Bytes) (recency : ℕ) : List (Bytes × Entry) :=
  entries.map fun item => if item.1 = key then (item.1, { item.2 with recency }) else item

/-- `get`. -/
def get (s : DiskStore) (key : Bytes) : Option Bytes × DiskStore :=
  match s.entries.lookup key with
  | none => (none, s)
  | some e =>
      let (content, disk) := s.disk.read fs e.path
      let s := { s with disk }
      match content.bind fun content => readEntry content key (e.size - 4 - key.length) with
      | none => (none, (s.remove key).2)
      | some payload =>
          (some payload, { s with
            entries := stamp s.entries key s.nextRecency
            nextRecency := s.nextRecency + 1 })

/-- `clear`. -/
def clear (s : DiskStore) : DiskStore :=
  s.entries.foldl (fun s item => (s.remove item.1).2) s

/-! ## Opening a directory -/

/-- `item.path().extension() == ".kvc"`. -/
def isKvc (path : Bytes) : Bool := 4 < path.length && path.drop (path.length - 4) == ascii ".kvc"

/-- The key under which the constructor indexes a file: longer keys are taken for
unreadable files. -/
def indexKey (content : Bytes) : Option Bytes :=
  if 4096 < LittleEndian.value (content.take 4) then none else storedKey content

/-- The index under construction: the entries, their total size, and the keys with the
modification times of their files. -/
structure Scan where
  entries : List (Bytes × Entry) := []
  totalBytes : ℕ := 0
  found : List (ℕ × Bytes) := []
  accesses : ℕ

/-- One file of the directory. -/
def scanFile (scan : Scan) (item : Bytes × File) : Scan :=
  if isKvc item.1 then
    let content := if fs.readFails scan.accesses then none else some item.2.content
    let scan := { scan with accesses := scan.accesses + 1 }
    match content.bind indexKey with
    | none => scan
    | some key =>
        let size := item.2.content.length
        { scan with
          entries := if (scan.entries.lookup key).isSome then scan.entries
            else scan.entries ++ [(key, ⟨item.1, size, 0⟩)]
          totalBytes := (scan.totalBytes + size) % 2 ^ 64
          found := scan.found ++ [(item.2.mtime, key)] }
  else scan

/-- `operator<` of `std::pair`, as an order for sorting. -/
def earlier (a b : ℕ × Bytes) : Bool := a.1 < b.1 || (a.1 == b.1 && decide (a.2 ≤ b.2))

/-- The constructor: rebuild the index from the directory, oldest file first in the
recency order. -/
def reopen (maxBytes : ℕ) (disk : Disk) : DiskStore :=
  let scan := disk.files.foldl (scanFile fs) { accesses := disk.accesses }
  let order := scan.found.mergeSort earlier
  { maxBytes
    entries := order.zipIdx.foldl (fun entries item => stamp entries item.1.2 (item.2 + 1))
      scan.entries
    totalBytes := scan.totalBytes
    nextRecency := order.length + 1
    disk := { disk with accesses := scan.accesses } }

end DiskStore

end Reame.Cache
