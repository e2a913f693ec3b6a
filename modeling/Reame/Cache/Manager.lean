import Reame.Cache.StoreContents
import Reame.Core.StatefulBackend
import Reame.Foundation.Wire

/-!
# Named snapshots

`CacheManager` ties the serializer to the disk store.  An entry is

  `"SVK1"` | `u64` checksum of the packed blob | `u32` `n_past` | packed blob

and whatever does not read back as such an entry is removed.

`loadState_spec` says what a successful `load_state` means, given what the store holds
under the key: the backend then holds the tokens the snapshot was taken of.
-/

namespace Reame.Cache

/-- `CacheStats`. -/
structure CacheStats where
  hits : ℕ := 0
  misses : ℕ := 0
  stores : ℕ := 0
deriving DecidableEq, Repr

/-- `CacheManager`. -/
structure CacheManager where
  store : DiskStore
  compressed : Bool
  stats : CacheStats := {}
deriving DecidableEq, Repr

/-- What a process brings along: the file system and the zstd it was built with. -/
structure Platform where
  fs : FileSystem
  zstd : Option Zstd

/-- The constructor of `CacheManager`. -/
def CacheManager.new (platform : Platform) (maxBytes : ℕ) (compressed : Bool) (disk : Disk) :
    CacheManager :=
  { store := .reopen platform.fs maxBytes disk, compressed }

/-! ## Keys -/

/-- The bytes that are hashed: the tag, a zero, and the tokens as `std::uint32_t`. -/
def keyMaterial (modelTag : Bytes) (tokens : List TokenId) : Bytes :=
  modelTag ++ [0] ++ tokens.flatMap fun t => LittleEndian.bytes 4 (t % 2 ^ 32).toNat

/-- A key: two hashes and the number of tokens. -/
def hashedKey (kind : Bytes) (modelTag : Bytes) (tokens : List TokenId) : Bytes :=
  let raw := keyMaterial modelTag tokens
  let h1 := checksum raw
  let h2 := checksum (raw ++ ascii "x")
  kind ++ Wire.decimal h1.toNat ++ ascii "-" ++ Wire.decimal h2.toNat ++ ascii "-n" ++
    Wire.decimal tokens.length

/-- `CacheManager::make_key`. -/
def makeKey (modelTag : Bytes) (tokens : List TokenId) : Bytes :=
  hashedKey (ascii "kv-") modelTag tokens

/-! ## Entries -/

/-- `kMagic`. -/
def magic : Bytes := ascii "SVK1"

/-- An entry around a packed blob. -/
def envelope (packed : Bytes) (nPast : ℕ) : Bytes :=
  magic ++ LittleEndian.bytes 8 (checksum packed).toNat ++ LittleEndian.bytes 4 nPast ++ packed

/-- The packed blob and `n_past` of an entry; `none` for a bad header or checksum. -/
def openEnvelope (entry : Bytes) : Option (Bytes × ℕ) :=
  if entry.length < 16 ∨ entry.take 4 ≠ magic then none
  else
    let expected := LittleEndian.value ((entry.drop 4).take 8)
    let nPast := LittleEndian.value ((entry.drop 12).take 4)
    let packed := entry.drop 16
    if (checksum packed).toNat ≠ expected then none else some (packed, nPast)

/-- How an entry of four parts is read. -/
theorem openEnvelope_parts {tag sum past : Bytes} (htag : tag.length = 4) (hsum : sum.length = 8)
    (hpast : past.length = 4) (packed : Bytes) :
    openEnvelope (tag ++ sum ++ past ++ packed) =
      if tag ≠ magic ∨ (checksum packed).toNat ≠ LittleEndian.value sum then none
      else some (packed, LittleEndian.value past) := by
  have hlong : ¬ (tag ++ sum ++ past ++ packed).length < 16 := by
    simp only [List.length_append, htag, hsum, hpast]
    omega
  have htake : (tag ++ sum ++ past ++ packed).take 4 = tag := by
    simp only [List.append_assoc]
    exact List.take_left' htag
  have hrest : (tag ++ sum ++ past ++ packed).drop 4 = sum ++ (past ++ packed) := by
    simp only [List.append_assoc]
    exact List.drop_left' htag
  have hsumBytes : ((tag ++ sum ++ past ++ packed).drop 4).take 8 = sum := by
    rw [hrest, List.take_left' hsum]
  have hpastBytes : ((tag ++ sum ++ past ++ packed).drop 12).take 4 = past := by
    calc ((tag ++ sum ++ past ++ packed).drop 12).take 4
        = (((tag ++ sum ++ past ++ packed).drop 4).drop 8).take 4 := by rw [List.drop_drop]
      _ = (past ++ packed).take 4 := by rw [hrest, List.drop_left' hsum]
      _ = past := List.take_left' hpast
  have hpacked : (tag ++ sum ++ past ++ packed).drop 16 = packed := by
    calc (tag ++ sum ++ past ++ packed).drop 16
        = (((tag ++ sum ++ past ++ packed).drop 4).drop 8).drop 4 := by
          rw [List.drop_drop, List.drop_drop]
      _ = (past ++ packed).drop 4 := by rw [hrest, List.drop_left' hsum]
      _ = packed := List.drop_left' hpast
  rw [openEnvelope, htake, hsumBytes, hpastBytes, hpacked]
  by_cases hmagic : tag = magic
  · rw [if_neg (not_or.mpr ⟨hlong, not_not.mpr hmagic⟩)]
    simp only [hmagic, ne_eq, not_true_eq_false, false_or]
  · rw [if_pos (.inr hmagic), if_pos (.inl hmagic)]

theorem openEnvelope_envelope (packed : Bytes) {nPast : ℕ} (hpast : nPast < 2 ^ 32) :
    openEnvelope (envelope packed nPast) = some (packed, nPast) := by
  have hsum : LittleEndian.value (LittleEndian.bytes 8 (checksum packed).toNat) =
      (checksum packed).toNat := by
    rw [LittleEndian.value_bytes]
    exact Nat.mod_eq_of_lt (checksum packed).toNat_lt
  have hvalue : LittleEndian.value (LittleEndian.bytes 4 nPast) = nPast := by
    rw [LittleEndian.value_bytes]
    exact Nat.mod_eq_of_lt hpast
  rw [envelope, openEnvelope_parts rfl (LittleEndian.length_bytes ..)
    (LittleEndian.length_bytes ..), hsum, hvalue, if_neg (by simp)]

/-! ## Operations -/

variable {K : Type*}

namespace CacheManager

variable (platform : Platform) (backend : StatefulBackend K)

/-- `store_state`. -/
def storeState (m : CacheManager) (key : Bytes) (kv : KvState) (nPast : ℕ) :
    Bool × CacheManager :=
  let packed := pack platform.zstd m.compressed (backend.stateData kv.cells)
  match m.store.put platform.fs key (envelope packed nPast) with
  | (false, store) => (false, { m with store })
  | (true, store) =>
      (true, { m with store, stats := { m.stats with stores := m.stats.stores + 1 } })

/-- A load that does not succeed. -/
def miss (m : CacheManager) : CacheManager :=
  { m with stats := { m.stats with misses := m.stats.misses + 1 } }

/-- A load that does not succeed, after which the entry is removed. -/
def drop (m : CacheManager) (key : Bytes) : CacheManager :=
  miss { m with store := (m.store.remove key).2 }

/-- `load_state`. -/
def loadState (m : CacheManager) (key : Bytes) (kv : KvState) : Bool × CacheManager × KvState :=
  match m.store.get platform.fs key with
  | (none, store) => (false, miss { m with store }, kv)
  | (some entry, store) =>
      let m := { m with store }
      match openEnvelope entry with
      | none => (false, drop m key, kv)
      | some (packed, nPast) =>
          match decompress platform.zstd packed with
          | .error _ => (false, drop m key, kv)
          | .ok raw =>
              match backend.setState kv raw nPast with
              | (.error _, kv) => (false, drop m key, kv)
              | (.ok _, kv) =>
                  (true, { m with stats := { m.stats with hits := m.stats.hits + 1 } }, kv)

end CacheManager

/-! ## What an entry stands for -/

/-- An entry for a snapshot of these tokens, by some build and configuration. -/
def IsSnapshot (zstd : Zstd) (backend : StatefulBackend K) (tokens : List TokenId)
    (entry : Bytes) : Prop :=
  ∃ writer compressed, (writer = none ∨ writer = some zstd) ∧
    entry = envelope (pack writer compressed (backend.stateData tokens.zipIdx)) tokens.length

/-- The process was built with this zstd or without any, and no write of its file system fails
unnoticed. -/
structure Platform.WorksWith (platform : Platform) (zstd : Zstd) : Prop where
  built : platform.zstd = none ∨ platform.zstd = some zstd
  noticed : ∀ access, platform.fs.Notices access

namespace CacheManager

variable {platform : Platform} {backend : StatefulBackend K} {zstd : Zstd}
  {good : Bytes → Bytes → Prop} {m : CacheManager}

variable (backend) in
/-- `store_state` keeps the store sound when the blob belongs under the key. -/
theorem storeState_sound (hplatform : platform.WorksWith zstd) (hsound : m.store.Sound good)
    {key : Bytes} (hkey : key.length < 2 ^ 32) {kv : KvState} {tokens : List TokenId}
    (hcells : kv.cells = tokens.zipIdx)
    (hgood : ∀ entry, IsSnapshot zstd backend tokens entry → good key entry) :
    (m.storeState platform backend key kv tokens.length).2.store.Sound good ∧
      (m.storeState platform backend key kv tokens.length).2.stats.hits = m.stats.hits := by
  have hentry := hgood _ ⟨platform.zstd, m.compressed, hplatform.built, rfl⟩
  rw [← hcells] at hentry
  have hput := hsound.put platform.fs (hplatform.noticed _) hkey hentry
  unfold storeState
  dsimp only
  split
  · rename_i store hstore
    rw [hstore] at hput
    exact ⟨hput, rfl⟩
  · rename_i store hstore
    rw [hstore] at hput
    exact ⟨hput, rfl⟩

variable (backend) in
/-- What a load does: on success the backend holds the tokens; otherwise it may hold
anything. -/
theorem loadState_spec (hplatform : platform.WorksWith zstd) (hsound : m.store.Sound good)
    (key : Bytes) {tokens : List TokenId} (hlength : tokens.length < 2 ^ 32)
    (hgood : ∀ entry, good key entry → IsSnapshot zstd backend tokens entry) (kv : KvState) :
    (m.loadState platform backend key kv).2.1.store.Sound good ∧
      (((m.loadState platform backend key kv).1 = true ∧
          (m.loadState platform backend key kv).2.2.Holds tokens ∧
          (m.loadState platform backend key kv).2.1.stats.hits = m.stats.hits + 1) ∨
        ((m.loadState platform backend key kv).1 = false ∧
          (m.loadState platform backend key kv).2.1.stats.hits = m.stats.hits)) := by
  obtain ⟨hafter, hdata⟩ := hsound.get platform.fs key
  unfold loadState
  rcases hget : m.store.get platform.fs key with ⟨entry, store⟩
  rw [hget] at hafter hdata
  cases entry with
  | none => exact ⟨hafter, .inr ⟨rfl, rfl⟩⟩
  | some entry =>
      obtain ⟨writer, compressed, hwriter, rfl⟩ := hgood _ (hdata entry rfl)
      dsimp only
      rw [openEnvelope_envelope _ hlength]
      dsimp only
      split
      · exact ⟨hafter.remove key, .inr ⟨rfl, rfl⟩⟩
      · rename_i raw hraw
        obtain rfl := decompress_pack hwriter hplatform.built compressed hraw
        split
        · exact ⟨hafter.remove key, .inr ⟨rfl, rfl⟩⟩
        · rename_i kv' hset
          exact ⟨hafter, .inl ⟨rfl, backend.setState_stateData hset, rfl⟩⟩

end CacheManager

end Reame.Cache
