import Reame.Cache.Manager
import Reame.Cache.Neighbours
import Reame.Cache.Reopening

/-!
# A damaged byte

One byte of the file of an entry is replaced.  The file is

  length of the key | key | `"SVK1"` | checksum | `n_past` | packed blob

and `load_state` looks at all of it.  A change in the length or in the key makes the
store drop the entry; a change in the magic, the checksum or the blob makes the manager
drop it, because FNV-1a never maps two blobs that differ in one byte to one checksum.

`n_past` is under no check.  A change there reaches the backend, with the blob it belongs
to and another position (`corruption_caught_iff`, `wrong_position_restored`).
-/

namespace Reame.Cache

/-! ## Replacing one byte -/

theorem set_ne {bytes : Bytes} {i : ℕ} {b : UInt8} (hi : i < bytes.length)
    (hb : bytes[i]? ≠ some b) : bytes.set i b ≠ bytes := by
  intro heq
  rw [← heq, List.getElem?_set_self hi] at hb
  exact hb rfl

theorem checksum_set_ne {bytes : Bytes} {i : ℕ} {b : UInt8} (hi : i < bytes.length)
    (hb : bytes[i]? ≠ some b) : checksum (bytes.set i b) ≠ checksum bytes := by
  intro heq
  have hsplit : bytes = bytes.take i ++ bytes[i] :: bytes.drop (i + 1) := by
    rw [← List.drop_eq_getElem_cons hi, List.take_append_drop]
  have hset : bytes.set i b = bytes.take i ++ b :: bytes.drop (i + 1) := by
    rw [List.set_eq_take_append_cons_drop, if_pos hi]
  rw [hset] at heq
  have hsame : b = bytes[i] := checksum_byte_inj (heq.trans (congrArg checksum hsplit))
  exact hb (by rw [hsame, List.getElem?_eq_getElem hi])

theorem value_set_ne {bytes : Bytes} {i : ℕ} {b : UInt8} (hi : i < bytes.length)
    (hb : bytes[i]? ≠ some b) :
    LittleEndian.value (bytes.set i b) ≠ LittleEndian.value bytes := fun heq =>
  set_ne hi hb (LittleEndian.value_inj (List.length_set ..) heq)

/-! ## What is read from a damaged file -/

theorem length_of_storedKey {content key : Bytes} (hstored : storedKey content = some key) :
    key.length = LittleEndian.value (content.take 4) := by
  unfold storedKey at hstored
  dsimp only at hstored
  split at hstored
  · cases hstored
  · rename_i hlong
    rw [List.length_take] at hlong
    rw [← Option.some.inj hstored, List.length_take]
    omega

theorem storedKey_parts {header key : Bytes} (hheader : header.length = 4)
    (hkey : key.length = LittleEndian.value header) (data : Bytes) :
    storedKey (header ++ key ++ data) = some key := by
  have htake : (header ++ key ++ data).take 4 = header := by
    rw [List.append_assoc, List.take_left' hheader]
  have hdrop : (header ++ key ++ data).drop 4 = key ++ data := by
    rw [List.append_assoc, List.drop_left' hheader]
  have hlong : ¬ (header ++ key ++ data).length < 4 := by
    rw [List.length_append, List.length_append]
    omega
  rw [storedKey, htake, hdrop, ← hkey, List.take_left, if_neg]
  simpa using hlong

/-- Damage to the length or to the key is noticed; the data are read as they are. -/
theorem readEntry_set {key : Bytes} (hkey : key.length < 2 ^ 32) (data : Bytes) {position : ℕ}
    {b : UInt8} (hb : (encodeFile key data)[position]? ≠ some b) :
    readEntry ((encodeFile key data).set position b) key data.length =
      if position < 4 + key.length then none
      else some (data.set (position - (4 + key.length)) b) := by
  have hheader : (LittleEndian.bytes 4 key.length).length = 4 := LittleEndian.length_bytes ..
  have hvalue : LittleEndian.value (LittleEndian.bytes 4 key.length) = key.length := by
    rw [LittleEndian.value_bytes]
    exact Nat.mod_eq_of_lt hkey
  have hfront : (LittleEndian.bytes 4 key.length ++ key).length = 4 + key.length := by
    rw [List.length_append, hheader]
  rw [encodeFile] at hb ⊢
  by_cases hposition : position < 4 + key.length
  · rw [List.getElem?_append_left (by rwa [hfront])] at hb
    rw [List.set_append_left _ _ (by rwa [hfront]), readEntry, if_pos hposition]
    refine if_neg fun hstored => ?_
    by_cases hlow : position < 4
    · rw [List.getElem?_append_left (by rwa [hheader])] at hb
      rw [List.set_append_left _ _ (by rwa [hheader]), List.append_assoc] at hstored
      have hlength := length_of_storedKey hstored
      rw [List.take_left' (by rw [List.length_set, hheader])] at hlength
      exact value_set_ne (by rwa [hheader]) hb (hlength.symm.trans hvalue.symm)
    · rw [List.getElem?_append_right (by omega), hheader] at hb
      rw [List.set_append_right _ _ (by omega), hheader,
        storedKey_parts hheader (by rw [List.length_set, hvalue]), Option.some.injEq] at hstored
      exact set_ne (by omega) hb hstored
  · have hpayload : ((LittleEndian.bytes 4 key.length ++ key ++
        data.set (position - (4 + key.length)) b).drop (4 + key.length)).take data.length =
          data.set (position - (4 + key.length)) b := by
      rw [List.drop_left' hfront, List.take_of_length_le (by rw [List.length_set])]
    rw [List.set_append_right _ _ (by omega), hfront, readEntry,
      if_pos (storedKey_parts hheader hvalue.symm _), hpayload]
    dsimp only
    rw [List.length_set, if_neg (lt_irrefl _), if_neg hposition]

/-- Damage to the magic, the checksum or the blob is noticed; `n_past` is read as it is. -/
theorem openEnvelope_set (packed : Bytes) (nPast : ℕ) {position : ℕ} {b : UInt8}
    (hposition : position < (envelope packed nPast).length)
    (hb : (envelope packed nPast)[position]? ≠ some b) :
    openEnvelope ((envelope packed nPast).set position b) =
      if 12 ≤ position ∧ position < 16 then
        some (packed, LittleEndian.value ((LittleEndian.bytes 4 nPast).set (position - 12) b))
      else none := by
  have hsum : (LittleEndian.bytes 8 (checksum packed).toNat).length = 8 :=
    LittleEndian.length_bytes ..
  have hpast : (LittleEndian.bytes 4 nPast).length = 4 := LittleEndian.length_bytes ..
  have hvalue : LittleEndian.value (LittleEndian.bytes 8 (checksum packed).toNat) =
      (checksum packed).toNat := by
    rw [LittleEndian.value_bytes]
    exact Nat.mod_eq_of_lt (checksum packed).toNat_lt
  have hmagic : magic.length = 4 := rfl
  generalize hsumBytes : LittleEndian.bytes 8 (checksum packed).toNat = sum at hsum hvalue
  generalize hpastBytes : LittleEndian.bytes 4 nPast = past at hpast
  have henvelope : envelope packed nPast = magic ++ sum ++ past ++ packed := by
    rw [envelope, hsumBytes, hpastBytes]
  have hfront : (magic ++ sum).length = 12 := by rw [List.length_append, hmagic, hsum]
  have hhead : (magic ++ sum ++ past).length = 16 := by rw [List.length_append, hfront, hpast]
  rw [henvelope, List.length_append, hhead] at hposition
  rw [henvelope] at hb ⊢
  by_cases hblob : 16 ≤ position
  · rw [List.getElem?_append_right (by omega), hhead] at hb
    rw [List.set_append_right _ _ (by omega), hhead, openEnvelope_parts hmagic hsum hpast, hvalue,
      if_pos, if_neg (by omega)]
    refine .inr fun heq => ?_
    exact checksum_set_ne (by omega) hb (UInt64.toNat_inj.mp heq)
  rw [List.getElem?_append_left (by omega)] at hb
  rw [List.set_append_left _ _ (by omega)]
  by_cases hlow : position < 12
  · rw [List.getElem?_append_left (by omega)] at hb
    rw [List.set_append_left _ _ (by omega), if_neg (by omega : ¬ (12 ≤ position ∧ position < 16))]
    by_cases htag : position < 4
    · rw [List.getElem?_append_left (by omega)] at hb
      rw [List.set_append_left _ _ (by omega),
        openEnvelope_parts ((List.length_set ..).trans hmagic) hsum hpast, if_pos]
      exact .inl (set_ne (by omega) hb)
    · rw [List.getElem?_append_right (by omega), hmagic] at hb
      rw [List.set_append_right _ _ (by omega), hmagic,
        openEnvelope_parts hmagic ((List.length_set ..).trans hsum) hpast, if_pos]
      refine .inr fun heq => ?_
      exact value_set_ne (by omega) hb (heq.symm.trans hvalue.symm)
  · rw [List.set_append_right _ _ (by omega), hfront,
      openEnvelope_parts hmagic hsum ((List.length_set ..).trans hpast), hvalue,
      if_neg (by simp), if_pos (by omega)]

/-! ## The damaged directory -/

/-- The directory with one byte of a file replaced. -/
def damage (disk : Disk) (path : Bytes) (position : ℕ) (b : UInt8) : Disk :=
  { disk with files := disk.files.map fun item =>
    if item.1 = path then
      (item.1, { item.2 with content := item.2.content.set position b })
    else item }

theorem lookup_damage (disk : Disk) (path : Bytes) (position : ℕ) (b : UInt8) :
    (damage disk path position b).files.lookup path = (disk.files.lookup path).map fun file =>
      { file with content := file.content.set position b } := by
  rw [damage]
  dsimp only
  induction disk.files with
  | nil => rfl
  | cons item items ih =>
      obtain ⟨name, file⟩ := item
      rw [List.map_cons]
      by_cases heq : name = path
      · subst heq
        simp
      · rw [if_neg heq, List.lookup_cons, List.lookup_cons,
          beq_eq_false_iff_ne.mpr (Ne.symm heq)]
        exact ih

namespace DiskStore

/-- Everything but writing to a key; other keys fit the header. -/
def Spares (key : Bytes) : StoreOp → Prop
  | .put other _ => other ≠ key ∧ other.length < 2 ^ 32
  | _ => True

/-- The file of a key has a certain content and the entry of the key is on it, as far as they are
there; the other files are those of other keys. -/
structure Shows (key content : Bytes) (s : DiskStore) : Prop where
  files : ∀ item ∈ s.disk.files,
    item.1 = pathFor key ∧ item.2.content = content ∨ storedKey item.2.content ≠ some key
  entries : ∀ e, (key, e) ∈ s.entries → e.path = pathFor key ∧ e.size = content.length

variable {fs : FileSystem} {s : DiskStore} {key content : Bytes}

theorem Shows.shrunk {after : DiskStore} (hs : Shows key content s) (hshrunk : Shrunk s after) :
    Shows key content after :=
  ⟨fun item hitem => hs.files item (hshrunk.files.subset hitem),
    fun e he => hs.entries e (hshrunk.entries.subset he)⟩

theorem shrunk_cleared (s : DiskStore) (key : Bytes) (incoming : ℕ) :
    Shrunk s (s.cleared key incoming) :=
  (shrunk_remove s key).trans (shrunk_evictUntilFits _ incoming)

theorem Shows.put (hs : Shows key content s) {other : Bytes} (hne : other ≠ key)
    (hother : other.length < 2 ^ 32) (data : Bytes) :
    Shows key content (s.put fs other data).2 := by
  have hcleared := hs.shrunk (shrunk_cleared s other (entrySize other data.length))
  have herased : ∀ item ∈ (erased (s.cleared other (entrySize other data.length)).disk
      (pathFor other)).files, item ∈ (s.cleared other (entrySize other data.length)).disk.files :=
    fun item hitem => (List.mem_filter.mp hitem).1
  rcases put_cases fs s other data with
    ⟨-, hput⟩ | ⟨-, -, hput⟩ | ⟨-, kept, hleft, hput⟩ <;> rw [hput]
  · exact hs
  · exact ⟨fun item hitem => hcleared.files item (herased item hitem), hcleared.entries⟩
  · refine ⟨fun item hitem => ?_, fun e he => ?_⟩
    · rcases List.mem_cons.mp hitem with rfl | hold
      · refine .inr fun hstored => ?_
        exact hne (storedKey_take_encodeFile hother (FileSystem.left_spec hleft).1 hstored).symm
      · exact hcleared.files item (herased item hold)
    · rcases List.mem_cons.mp he with heq | hold
      · exact absurd (Prod.mk.inj heq).1.symm hne
      · exact hcleared.entries e (List.mem_filter.mp hold).1

theorem Shows.get (hs : Shows key content s) (other : Bytes) :
    Shows key content (s.get fs other).2 := by
  have haccessed : Shows key content s.accessed := ⟨hs.files, hs.entries⟩
  rcases get_cases fs s other with ⟨-, hget⟩ | ⟨e, -, ⟨-, hget⟩ | ⟨payload, -, hget⟩⟩ <;> rw [hget]
  · exact hs
  · exact haccessed.shrunk (shrunk_remove _ other)
  · refine ⟨hs.files, fun e he => ?_⟩
    obtain ⟨⟨key', before⟩, hbefore, rfl, hpath, hsize⟩ := mem_stamp he
    rw [← hpath, ← hsize]
    exact hs.entries before hbefore

theorem Shows.reopen (hs : Shows key content s) (maxBytes : ℕ) :
    Shows key content (reopen fs maxBytes s.disk) := by
  refine ⟨hs.files, fun e he => ?_⟩
  obtain ⟨file, hfile, hstored, hsize⟩ := describes_reopen fs maxBytes s.disk _ he
  rcases hs.files _ hfile with ⟨hpath, hcontent⟩ | hother
  · exact ⟨hpath, hsize.trans (congrArg List.length hcontent)⟩
  · exact absurd hstored hother

theorem shows_run (fs : FileSystem) (hs : Shows key content s) {ops : List StoreOp}
    (hops : ∀ op ∈ ops, Spares key op) : Shows key content (s.run fs ops) := by
  induction ops generalizing s with
  | nil => exact hs
  | cons op ops ih =>
      refine ih ?_ fun op' hop' => hops op' (List.mem_cons_of_mem _ hop')
      have hop := hops op (List.mem_cons_self ..)
      cases op with
      | put other data => exact hs.put hop.1 hop.2 data
      | get other => exact hs.get other
      | contains other => exact hs
      | remove other => exact hs.shrunk (shrunk_remove s other)
      | clear => exact clear_induction (fun s other hs => hs.shrunk (shrunk_remove s other)) hs
      | reopen maxBytes => exact hs.reopen maxBytes

/-- What can be read under the key is what its file shows. -/
theorem Shows.get_eq (hs : Shows key content s) {payload : Bytes}
    (hget : (s.get fs key).1 = some payload) :
    readEntry content key (content.length - 4 - key.length) = some payload := by
  obtain ⟨e, file, hlookup, hfile, hread⟩ := get_eq_some hget
  obtain ⟨-, hsize⟩ := hs.entries e (mem_of_lookup hlookup)
  rcases hs.files _ (mem_of_lookup hfile) with ⟨-, hcontent⟩ | hother
  · rw [← hsize, ← hcontent]
    exact hread
  · exact absurd (readEntry_spec hread).1 hother

/-- The store after a `put` and the replacement of a byte in the file. -/
def damagedAfter (fs : FileSystem) (s : DiskStore) (key data : Bytes) (position : ℕ) (b : UInt8) :
    DiskStore :=
  { (s.put fs key data).2 with
    disk := damage (s.put fs key data).2.disk (pathFor key) position b }

variable {data : Bytes} {position : ℕ} {b : UInt8}

theorem shows_of_put (hs : s.disk.Named) (hput : (s.put fs key data).1 = true)
    (hwhole : s.WritesWhole fs key data) (position : ℕ) (b : UInt8) :
    Shows key ((encodeFile key data).set position b)
      (s.damagedAfter fs key data position b) := by
  rw [damagedAfter, put_of_whole hput hwhole]
  refine ⟨fun item hitem => ?_, fun e he => ?_⟩
  · obtain ⟨before, hbefore, rfl⟩ := List.mem_map.mp hitem
    rcases List.mem_cons.mp hbefore with rfl | hold
    · rw [if_pos rfl]
      exact .inl ⟨rfl, rfl⟩
    · obtain ⟨hmem, hname⟩ := List.mem_filter.mp hold
      have hne : before.1 ≠ pathFor key := by simpa using hname
      rw [if_neg hne]
      exact .inr fun hstored =>
        hne (hs.keys _ ((shrunk_cleared s key _).files.subset hmem) key hstored)
  · rcases List.mem_cons.mp he with heq | hold
    · obtain ⟨-, rfl⟩ := Prod.mk.inj heq
      exact ⟨rfl, by rw [List.length_set, length_encodeFile]⟩
    · simp at hold

theorem encodeFile_set (hposition : 4 + key.length ≤ position) :
    (encodeFile key data).set position b =
      encodeFile key (data.set (position - (4 + key.length)) b) := by
  have hfront : (LittleEndian.bytes 4 key.length ++ key).length = 4 + key.length := by
    rw [List.length_append, LittleEndian.length_bytes]
  rw [encodeFile, List.set_append_right _ _ (by omega), hfront, encodeFile]

/-- Damage behind the key is not noticed by the store. -/
theorem get_of_damage (hread : ∀ access, fs.readFails access = false)
    (hput : (s.put fs key data).1 = true) (hwhole : s.WritesWhole fs key data)
    (hkey : key.length < 2 ^ 32) (hposition : 4 + key.length ≤ position) :
    ((s.damagedAfter fs key data position b).get fs key).1 =
      some (data.set (position - (4 + key.length)) b) := by
  obtain ⟨⟨recency, hentry⟩, hfile⟩ := lookups_of_whole hput hwhole
  have hdamaged : (damage (s.put fs key data).2.disk (pathFor key) position b).files.lookup
      (pathFor key) = some ⟨encodeFile key (data.set (position - (4 + key.length)) b),
        fs.mtime s.disk.accesses⟩ := by
    rw [lookup_damage, hfile, Option.map_some, encodeFile_set hposition]
  exact get_of_file hentry (hread _) hdamaged (by rw [List.length_set]) hkey

end DiskStore

/-! ## Loading -/

variable {K : Type*}

namespace CacheManager

/-- What `load_state` hands to `set_state`. -/
def handed (platform : Platform) (m : CacheManager) (key : Bytes) : Option (Bytes × ℕ) :=
  ((m.store.get platform.fs key).1.bind openEnvelope).bind fun (packed, nPast) =>
    match decompress platform.zstd packed with
    | .error _ => none
    | .ok raw => some (raw, nPast)

variable (platform : Platform) (backend : StatefulBackend K)

/-- A load fails and leaves the backend alone when nothing is handed to it, and is what
`set_state` makes of it otherwise. -/
theorem loadState_handed (m : CacheManager) (key : Bytes) (kv : KvState) :
    (m.handed platform key = none →
      (m.loadState platform backend key kv).1 = false ∧
        (m.loadState platform backend key kv).2.2 = kv) ∧
    ∀ raw nPast, m.handed platform key = some (raw, nPast) →
      ((m.loadState platform backend key kv).1 = true ↔
        (backend.setState kv raw nPast).1 = .ok ()) ∧
      (m.loadState platform backend key kv).2.2 = (backend.setState kv raw nPast).2 := by
  rw [handed, loadState]
  rcases m.store.get platform.fs key with ⟨entry, store⟩
  cases entry with
  | none => exact ⟨fun _ => ⟨rfl, rfl⟩, by simp⟩
  | some entry =>
      simp only [Option.bind_some]
      cases openEnvelope entry with
      | none => exact ⟨fun _ => ⟨rfl, rfl⟩, by simp⟩
      | some opened =>
          obtain ⟨packed, found⟩ := opened
          simp only [Option.bind_some]
          cases decompress platform.zstd packed with
          | error e => exact ⟨fun _ => ⟨rfl, rfl⟩, by simp⟩
          | ok raw =>
              refine ⟨by simp, fun raw' nPast heq => ?_⟩
              obtain ⟨rfl, rfl⟩ := Prod.mk.inj (Option.some.inj heq)
              simp only
              rcases backend.setState kv raw found with ⟨result, kv'⟩
              cases result <;> simp

theorem storeState_put (m : CacheManager) (key : Bytes) (kv : KvState) (nPast : ℕ) :
    let entry := envelope (pack platform.zstd m.compressed (backend.stateData kv.cells)) nPast
    (m.storeState platform backend key kv nPast).1 = (m.store.put platform.fs key entry).1 ∧
      (m.storeState platform backend key kv nPast).2.store =
        (m.store.put platform.fs key entry).2 := by
  dsimp only
  rw [storeState]
  dsimp only
  split
  · rename_i store hput
    rw [hput]
    exact ⟨rfl, rfl⟩
  · rename_i store hput
    rw [hput]
    exact ⟨rfl, rfl⟩

/-- A load fails and leaves the backend alone, or it hands the backend this state. -/
def Honest (m : CacheManager) (key blob : Bytes) (nPast : ℕ) : Prop :=
  ∀ kv, m.handed platform key = none ∧ (m.loadState platform backend key kv).1 = false ∧
      (m.loadState platform backend key kv).2.2 = kv ∨
    m.handed platform key = some (blob, nPast)

/-- The manager after one byte of the file of a key was replaced and some operations. -/
def damagedRun (m : CacheManager) (key : Bytes) (position : ℕ) (b : UInt8)
    (later : List StoreOp) : CacheManager :=
  { m with store :=
    ({ m.store with disk := damage m.store.disk (pathFor key) position b }).run platform.fs later }

/-- The byte behind the key is one of the data. -/
theorem getElem?_encodeFile {key : Bytes} (data : Bytes) {position : ℕ}
    (hposition : 4 + key.length ≤ position) :
    (encodeFile key data)[position]? = data[position - (4 + key.length)]? := by
  have hfront : (LittleEndian.bytes 4 key.length ++ key).length = 4 + key.length := by
    rw [List.length_append, LittleEndian.length_bytes]
  rw [encodeFile, List.getElem?_append_right (by omega), hfront]

theorem length_envelope (packed : Bytes) (nPast : ℕ) :
    (envelope packed nPast).length = 16 + packed.length := by
  have hmagic : magic.length = 4 := rfl
  simp only [envelope, List.length_append, LittleEndian.length_bytes, hmagic]

variable {platform} {m : CacheManager} {key packed : Bytes} {nPast position : ℕ} {b : UInt8}

/-- Damage outside `n_past` is noticed. -/
theorem handed_of_shows
    (hm : m.store.Shows key ((encodeFile key (envelope packed nPast)).set position b))
    (hposition : position < (encodeFile key (envelope packed nPast)).length)
    (hb : (encodeFile key (envelope packed nPast))[position]? ≠ some b)
    (hout : key.length < 2 ^ 32 → position < key.length + 16 ∨ key.length + 20 ≤ position) :
    m.handed platform key = none := by
  rw [handed]
  cases hget : (m.store.get platform.fs key).1 with
  | none => rfl
  | some payload =>
      have hkey := DiskStore.length_of_get hget
      have hout := hout hkey
      have hread := hm.get_eq hget
      have hsize : ((encodeFile key (envelope packed nPast)).set position b).length - 4 -
          key.length = (envelope packed nPast).length := by
        rw [List.length_set, length_encodeFile, entrySize]
        omega
      rw [hsize, readEntry_set hkey _ hb] at hread
      split at hread
      · cases hread
      · rename_i hbehind
        rw [length_encodeFile, entrySize] at hposition
        rw [getElem?_encodeFile _ (by omega)] at hb
        have hopened := openEnvelope_set packed nPast (by omega) hb
        rw [if_neg (by omega)] at hopened
        rw [← Option.some.inj hread, Option.bind_some, hopened]
        rfl

/-- Damage to `n_past` reaches the backend. -/
theorem handed_of_past (hread : ∀ access, platform.fs.readFails access = false) {blob : Bytes}
    (hpacked : decompress platform.zstd packed = .ok blob)
    (hput : (m.store.put platform.fs key (envelope packed nPast)).1 = true)
    (hwhole : m.store.WritesWhole platform.fs key (envelope packed nPast))
    (hkey : key.length < 2 ^ 32) (hb : (encodeFile key (envelope packed nPast))[position]? ≠ some b)
    (hlow : key.length + 16 ≤ position) (hhigh : position < key.length + 20)
    {damaged : CacheManager} (hstore : damaged.store =
      m.store.damagedAfter platform.fs key (envelope packed nPast) position b) :
    ∃ found, found ≠ nPast % 2 ^ 32 ∧ damaged.handed platform key = some (blob, found) := by
  have hlength := length_envelope packed nPast
  have hentry : (envelope packed nPast)[position - (4 + key.length)]? ≠ some b := by
    rwa [getElem?_encodeFile _ (by omega)] at hb
  have hopened := openEnvelope_set packed nPast (by omega) hentry
  rw [if_pos (by omega)] at hopened
  have hpast : (LittleEndian.bytes 4 nPast).length = 4 := LittleEndian.length_bytes ..
  have hfront : (magic ++ LittleEndian.bytes 8 (checksum packed).toNat).length = 12 := by
    rw [List.length_append, LittleEndian.length_bytes]
    rfl
  rw [envelope, List.getElem?_append_left (by rw [List.length_append]; omega),
    List.getElem?_append_right (by omega), hfront] at hentry
  have hvalue := value_set_ne (by omega) hentry
  rw [LittleEndian.value_bytes] at hvalue
  refine ⟨_, hvalue, ?_⟩
  rw [handed, hstore, DiskStore.get_of_damage hread hput hwhole hkey (by omega),
    Option.bind_some, hopened, Option.bind_some]
  simp only [hpacked]

variable (platform) in
/-- Whatever byte of the file of an entry is replaced, once all of it is written, and whatever is
done then but for writing to its key: the original state is restored or none, exactly if the byte is
not one of `n_past`. -/
theorem corruption_caught_iff (hread : ∀ access, platform.fs.readFails access = false)
    (maxBytes : ℕ) (compressed : Bool) (before : List StoreOp)
    (hbefore : ∀ key data, .put key data ∈ before → key.length < 2 ^ 32) (key : Bytes)
    (kv : KvState) (nPast : ℕ) (hpast : nPast < 2 ^ 32) :
    let m : CacheManager :=
      { store := (DiskStore.reopen platform.fs maxBytes {}).run platform.fs before, compressed }
    let blob := backend.stateData kv.cells
    let entry := envelope (pack platform.zstd compressed blob) nPast
    let content := encodeFile key entry
    let written := m.storeState platform backend key kv nPast
    written.1 = true → m.store.WritesWhole platform.fs key entry →
      ∀ position < content.length, ∀ b, content[position]? ≠ some b →
      ((∀ later, (∀ op ∈ later, DiskStore.Spares key op) →
          Honest platform backend (written.2.damagedRun platform key position b later) key blob
            nPast) ↔
        (key.length < 2 ^ 32 → position < key.length + 16 ∨ key.length + 20 ≤ position)) := by
  intro m blob entry content written hwritten hwhole position hposition b hb
  obtain ⟨hput, hstore⟩ := storeState_put platform backend m key kv nPast
  have hstored : (m.store.put platform.fs key (envelope (pack platform.zstd compressed blob)
      nPast)).1 = true := hput.symm.trans hwritten
  have hnamed : m.store.disk.Named :=
    DiskStore.named_run (DiskStore.labelled_reopen_empty ..) hbefore
  have hdamaged : { written.2.store with
      disk := damage written.2.store.disk (pathFor key) position b } =
        m.store.damagedAfter platform.fs key (envelope (pack platform.zstd compressed blob) nPast)
          position b := by
    rw [hstore]
    rfl
  constructor
  · intro hhonest hkey
    by_contra hpastBytes
    rw [not_or, not_lt, not_le] at hpastBytes
    have hafter : (written.2.damagedRun platform key position b []).store = _ := hdamaged
    obtain ⟨found, hne, hhanded⟩ := handed_of_past hread
      (decompress_pack_self platform.zstd compressed blob) hstored hwhole hkey hb hpastBytes.1
      hpastBytes.2 hafter
    rcases hhonest [] (by simp) kv with ⟨hnone, -⟩ | hsame
    · rw [hhanded] at hnone
      cases hnone
    · rw [hhanded] at hsame
      have heq := (Prod.mk.inj (Option.some.inj hsame)).2
      rw [Nat.mod_eq_of_lt hpast] at hne
      exact hne heq
  · intro hout later hlater kv'
    have hrun := DiskStore.shows_run platform.fs
      (DiskStore.shows_of_put hnamed hstored hwhole position b) hlater
    rw [← hdamaged] at hrun
    have hnone : (written.2.damagedRun platform key position b later).handed platform key = none :=
      handed_of_shows hrun hposition hb hout
    exact .inl ⟨hnone, (loadState_handed platform backend _ key kv').1 hnone⟩

end CacheManager

/-! ## An example -/

/-- A backend over one token; a blob is as long as the code of its cells, its bytes are all ones. -/
def tallyBackend : StatefulBackend ℚ where
  vocabSize := 1
  contextLength := 8
  eosToken := 0
  isEog _ := false
  logits _ := [0]
  tokenize _ _ := []
  detokenize _ := []
  tokenPiece _ := []
  vocabSize_pos := Nat.one_pos
  length_logits _ := rfl
  attend _ := [0]
  stateData cells := List.replicate (Encodable.encode cells) 255
  parseState data := Encodable.decode data.length
  restoreFails _ := false
  clobbered _ := []
  attend_zipIdx _ := rfl
  length_attend _ := rfl
  parseState_stateData := decode_length_encode 255
  contextLength_le := eight_le_contextLimit

namespace CacheManager

/-- The flag of the packed blob is replaced. -/
theorem corruption_caught_flag :
    let platform : Platform := ⟨.faultless, none⟩
    let m : CacheManager :=
      { store := (DiskStore.reopen .faultless 0 {}).run .faultless [], compressed := false }
    let written := m.storeState platform tallyBackend (ascii "k") ⟨[], 0, 0⟩ 5
    (∀ later, (∀ op ∈ later, DiskStore.Spares (ascii "k") op) →
        Honest platform tallyBackend (written.2.damagedRun platform (ascii "k") 21 0 later)
          (ascii "k") (tallyBackend.stateData []) 5) ↔
      ((ascii "k").length < 2 ^ 32 →
        21 < (ascii "k").length + 16 ∨ (ascii "k").length + 20 ≤ 21) :=
  corruption_caught_iff ⟨.faultless, none⟩ tallyBackend (fun _ => rfl) 0 false [] nofun (ascii "k")
    ⟨[], 0, 0⟩ 5 (by decide) (by decide +kernel) (by decide +kernel) 21 (by decide +kernel) 0
    (by decide +kernel)

/-- A byte of `n_past` is replaced: the blob is restored at position 7 in place of 5. -/
theorem wrong_position_restored :
    let platform : Platform := ⟨.faultless, none⟩
    let m : CacheManager := { store := DiskStore.reopen .faultless 0 {}, compressed := false }
    let written := m.storeState platform tallyBackend (ascii "k") ⟨[], 5, 0⟩ 5
    let damaged := written.2.damagedRun platform (ascii "k") 17 7 []
    written.1 = true ∧ damaged.handed platform (ascii "k") = some (tallyBackend.stateData [], 7) ∧
      ¬ Honest platform tallyBackend damaged (ascii "k") (tallyBackend.stateData []) 5 := by
  intro platform m written damaged
  have hhanded : damaged.handed platform (ascii "k") = some (tallyBackend.stateData [], 7) := by
    decide +kernel
  refine ⟨by decide +kernel, hhanded, fun hhonest => ?_⟩
  rcases hhonest ⟨[], 0, 0⟩ with ⟨hnone, -⟩ | hsame
  · rw [hhanded] at hnone
    cases hnone
  · rw [hhanded] at hsame
    exact absurd (Prod.mk.inj (Option.some.inj hsame)).2 (by decide)

end CacheManager

end Reame.Cache
