import Reame.Core.Backend

/-!
# Packing snapshots

`KVCacheSerializer`: a snapshot travels inside a compression envelope, one flag byte and
a payload, and is guarded by a 64-bit FNV-1a checksum.  zstd is a parameter; a build
without it writes raw payloads and cannot read the others.
-/

namespace Reame.Cache

/-- zstd, as far as it is used: a frame it wrote states the size of its content and can
be decompressed into a buffer of that size. -/
structure Zstd where
  compress : Bytes → Bytes
  /-- `ZSTD_getFrameContentSize`; `none` for an error or an unknown size. -/
  frameContentSize : Bytes → Option ℕ
  /-- `ZSTD_decompress` into a buffer of the given capacity. -/
  decompress : Bytes → ℕ → Option Bytes
  frameContentSize_compress : ∀ data, frameContentSize (compress data) = some data.length
  decompress_compress : ∀ data, decompress (compress data) data.length = some data

/-- `CacheError`. -/
inductive CacheError
  | emptyEnvelope
  | corruptFrame
  | decompressionFailed
  | builtWithoutZstd
  | unknownFlag (flag : UInt8)
deriving DecidableEq, Repr

/-- The text of a `CacheError`. -/
def CacheError.what : CacheError → Bytes
  | .emptyEnvelope => ascii "empty compression envelope"
  | .corruptFrame => ascii "corrupt zstd frame in cache entry"
  | .decompressionFailed => ascii "zstd decompression failed"
  | .builtWithoutZstd =>
      ascii "cache entry is zstd-compressed but reame was built without zstd"
  | .unknownFlag flag => ascii "unknown compression envelope flag '" ++ [flag] ++ ascii "'"

/-- `kFlagZstd`. -/
def flagZstd : UInt8 := chr 'Z'

/-- `kFlagRaw`. -/
def flagRaw : UInt8 := chr 'R'

/-- `KVCacheSerializer::checksum`: FNV-1a. -/
def checksum (data : Bytes) : UInt64 :=
  data.foldl (fun hash c => (hash ^^^ c.toUInt64) * 0x100000001b3) 0xcbf29ce484222325

/-- The raw envelope. -/
def packRaw (data : Bytes) : Bytes := flagRaw :: data

/-- `KVCacheSerializer::compress`; `zstd` is `none` in a build without it. -/
def compress (zstd : Option Zstd) (data : Bytes) : Bytes :=
  match zstd with
  | some zstd => flagZstd :: zstd.compress data
  | none => packRaw data

/-- `KVCacheSerializer::decompress`. -/
def decompress (zstd : Option Zstd) (data : Bytes) : Except CacheError Bytes :=
  match data with
  | [] => .error .emptyEnvelope
  | flag :: payload =>
      if flag = flagRaw then .ok payload
      else if flag = flagZstd then
        match zstd with
        | some zstd =>
            match zstd.frameContentSize payload with
            | none => .error .corruptFrame
            | some rawSize =>
                match zstd.decompress payload rawSize with
                | some raw => if raw.length = rawSize then .ok raw else .error .decompressionFailed
                | none => .error .decompressionFailed
        | none => .error .builtWithoutZstd
      else .error (.unknownFlag flag)

/-- What `store_state` packs. -/
def pack (zstd : Option Zstd) (compressed : Bool) (data : Bytes) : Bytes :=
  if compressed then compress zstd data else packRaw data

/-- Whoever packed it, with or without zstd, a reader gets the data back or an error. -/
theorem decompress_pack {zstd : Zstd} {writer reader : Option Zstd}
    (hwriter : writer = none ∨ writer = some zstd)
    (hreader : reader = none ∨ reader = some zstd) (compressed : Bool) {data raw : Bytes}
    (hraw : decompress reader (pack writer compressed data) = .ok raw) : raw = data := by
  have hne : flagZstd ≠ flagRaw := by decide
  have hplain : decompress reader (packRaw data) = .ok data := by
    simp [decompress, packRaw]
  have hpacked : pack writer compressed data = packRaw data ∨
      pack writer compressed data = flagZstd :: zstd.compress data := by
    rcases hwriter with rfl | rfl <;> cases compressed <;> simp [pack, compress]
  rcases hpacked with hpacked | hpacked
  · rw [hpacked, hplain] at hraw
    cases hraw
    rfl
  · rw [hpacked] at hraw
    rcases hreader with rfl | rfl
    · simp [decompress, hne] at hraw
    · simp [decompress, hne, zstd.frameContentSize_compress, zstd.decompress_compress] at hraw
      exact hraw.symm

/-- What a process has packed it can unpack. -/
theorem decompress_pack_self (zstd : Option Zstd) (compressed : Bool) (data : Bytes) :
    decompress zstd (pack zstd compressed data) = .ok data := by
  have hne : flagZstd ≠ flagRaw := by decide
  have hplain : decompress zstd (packRaw data) = .ok data := by
    simp [decompress, packRaw]
  cases zstd with
  | none => cases compressed <;> exact hplain
  | some zstd =>
      cases compressed with
      | false => exact hplain
      | true =>
          simp [pack, compress, decompress, hne, zstd.frameContentSize_compress,
            zstd.decompress_compress]

end Reame.Cache
