import Reame.Cache.Manager

/-!
# The shared-prefix cache

`PrefixCache::prefill` makes the backend hold a token sequence: it restores the longest
snapshot the store has for one of the sequence's boundaries and decodes the rest block by
block, storing a snapshot at every boundary it crosses.

Its correctness rests on an invariant of the whole directory, `Represents`: what is stored
under the key of a token sequence is a snapshot of that sequence.  `prefill` needs it and
keeps it (`prefill_spec`), whatever the store evicts on the way and whichever loads and stores
fail, as long as the failing stores are noticed (`Platform.WorksWith`).  Of a snapshot that has
lost its end unnoticed only the checksum knows.
-/

namespace Reame.Cache

/-- `PrefixCache`, apart from its manager.  `block_tokens` is an `int`. -/
structure PrefixCache where
  modelTag : Bytes
  blockTokens : ℤ
  blockTokens_lt : blockTokens < 2 ^ 31

/-- The key of a token sequence. -/
def keyOf (modelTag : Bytes) (tokens : List TokenId) : Bytes :=
  hashedKey (ascii "pfx-") modelTag tokens

namespace PrefixCache

variable {K : Type*} (cache : PrefixCache)

/-- `block_tokens_`. -/
def block : ℕ := (max cache.blockTokens 1).toNat

theorem block_mem : 0 < cache.block ∧ cache.block < 2 ^ 31 := by
  have := cache.blockTokens_lt
  unfold block
  omega

/-- The loop of `boundaries`, with a `std::uint32_t` counter.  For sizes up to `2^31`,
the range of token positions, it leaves before the counter wraps
(`mem_boundariesFrom`). -/
def boundariesFrom (block size : ℕ) : ℕ → ℕ → List ℕ
  | 0, _ => []
  | fuel + 1, b =>
      if b < size then b :: boundariesFrom block size fuel ((b + block) % 2 ^ 32) else []

/-- `boundaries`. -/
def boundaries (size : ℕ) : List ℕ :=
  boundariesFrom cache.block size size cache.block ++ if 0 < size then [size % 2 ^ 32] else []

/-- `key_for`. -/
def keyFor (tokens : List TokenId) (n : ℕ) : Bytes := keyOf cache.modelTag (tokens.take n)

/-! ## Prefill -/

section Prefill

variable (platform : Platform) (backend : StatefulBackend K)

/-- The loop over the boundaries, longest first. -/
def restoreLongest (tokens : List TokenId) :
    List ℕ → CacheManager → KvState → ℕ × CacheManager × KvState
  | [], m, kv => (0, m, kv)
  | b :: rest, m, kv =>
      match m.loadState platform backend (cache.keyFor tokens b) kv with
      | (true, m, kv) => (b, m, kv)
      | (false, m, kv) => restoreLongest tokens rest m kv

/-- The loop that decodes the remainder. -/
def decodeBlocks (tokens : List TokenId) (restored : ℕ) :
    List ℕ → ℕ → CacheManager → KvState → Except Fault Unit × CacheManager × KvState
  | [], _, m, kv => (.ok (), m, kv)
  | b :: rest, pos, m, kv =>
      if b ≤ restored then decodeBlocks tokens restored rest pos m kv
      else
        match backend.decodeAppend kv ((tokens.drop pos).take (b - pos)) with
        | (.error fault, kv) => (.error fault, m, kv)
        | (.ok _, kv) =>
            decodeBlocks tokens restored rest b
              (m.storeState platform backend (cache.keyFor tokens b) kv b).2 kv

/-- `prefill`. -/
def prefill (tokens : List TokenId) (m : CacheManager) (kv : KvState) :
    Except Fault ℕ × CacheManager × KvState :=
  if tokens = [] then (.ok 0, m, StatefulBackend.reset kv)
  else
    let marks := cache.boundaries tokens.length
    let (restored, m, kv) := cache.restoreLongest platform backend tokens marks.reverse m kv
    let kv := if restored = 0 then StatefulBackend.reset kv else kv
    match cache.decodeBlocks platform backend tokens restored marks restored m kv with
    | (.error fault, m, kv) => (.error fault, m, kv)
    | (.ok _, m, kv) => (.ok restored, m, kv)

end Prefill

/-! ## Boundaries -/

/-- The loop collects the multiples of the block size below `size`. -/
theorem mem_boundariesFrom {block size : ℕ} (hblock : 0 < block ∧ block < 2 ^ 31)
    (hsize : size ≤ 2 ^ 31) {x : ℕ} :
    ∀ fuel k, size ≤ fuel + k * block →
      (x ∈ boundariesFrom block size fuel (k * block) ↔ x < size ∧ ∃ j ≥ k, x = j * block) := by
  intro fuel
  induction fuel with
  | zero =>
      intro k hfuel
      simp only [boundariesFrom, List.not_mem_nil, false_iff, not_and, not_exists]
      rintro hx j hj rfl
      have := Nat.mul_le_mul_right block hj
      omega
  | succ fuel ih =>
      intro k hfuel
      rw [boundariesFrom]
      split
      · rename_i hlt
        have hnext : (k * block + block) % 2 ^ 32 = (k + 1) * block := by
          rw [Nat.mod_eq_of_lt (by omega), Nat.succ_mul]
        rw [hnext, List.mem_cons, ih (k + 1) (by rw [Nat.succ_mul]; omega)]
        constructor
        · rintro (rfl | ⟨hx, j, hj, rfl⟩)
          · exact ⟨hlt, k, le_rfl, rfl⟩
          · exact ⟨hx, j, by omega, rfl⟩
        · rintro ⟨hx, j, hj, rfl⟩
          rcases hj.lt_or_eq with hj | rfl
          · exact .inr ⟨hx, j, hj, rfl⟩
          · exact .inl rfl
      · rename_i hge
        simp only [List.not_mem_nil, false_iff, not_and, not_exists]
        rintro hx j hj rfl
        have := Nat.mul_le_mul_right block hj
        omega

/-- The boundaries of a sequence: the multiples of the block size below its length, and
the length itself. -/
theorem mem_boundaries {size : ℕ} (hsize : size ≤ 2 ^ 31) {x : ℕ} :
    x ∈ cache.boundaries size ↔ 0 < x ∧ (x = size ∨ (x < size ∧ cache.block ∣ x)) := by
  have hblock := cache.block_mem
  have hloop := mem_boundariesFrom hblock hsize (x := x) size 1 (by omega)
  rw [Nat.one_mul] at hloop
  have hmultiple : (∃ j ≥ 1, x = j * cache.block) ↔ 0 < x ∧ cache.block ∣ x := by
    constructor
    · rintro ⟨j, hj, rfl⟩
      exact ⟨Nat.mul_pos hj hblock.1, Nat.dvd_mul_left ..⟩
    · rintro ⟨hx, j, rfl⟩
      exact ⟨j, Nat.pos_of_mul_pos_left hx, Nat.mul_comm ..⟩
  have hlast : x ∈ (if 0 < size then [size % 2 ^ 32] else []) ↔ 0 < x ∧ x = size := by
    rw [Nat.mod_eq_of_lt (by omega)]
    split
    · simp only [List.mem_singleton]
      omega
    · simp only [List.not_mem_nil, false_iff]
      omega
  rw [boundaries, List.mem_append, hloop, hmultiple, hlast]
  tauto

theorem boundaries_sorted {size : ℕ} (hsize : size ≤ 2 ^ 31) :
    (cache.boundaries size).Pairwise (· < ·) := by
  have hblock := cache.block_mem
  have hloop : ∀ fuel b, (boundariesFrom cache.block size fuel b).Pairwise (· < ·) ∧
      ∀ x ∈ boundariesFrom cache.block size fuel b, b ≤ x ∧ x < size := by
    intro fuel
    induction fuel with
    | zero => intro b; simp [boundariesFrom]
    | succ fuel ih =>
        intro b
        rw [boundariesFrom]
        split
        · rename_i hlt
          have hnext : (b + cache.block) % 2 ^ 32 = b + cache.block :=
            Nat.mod_eq_of_lt (by omega)
          rw [hnext]
          obtain ⟨hsorted, hrange⟩ := ih (b + cache.block)
          refine ⟨List.pairwise_cons.mpr ⟨fun x hx => ?_, hsorted⟩, ?_⟩
          · have := hrange x hx
            omega
          · simp only [List.mem_cons, forall_eq_or_imp]
            exact ⟨⟨le_rfl, hlt⟩, fun x hx => ⟨by have := hrange x hx; omega, (hrange x hx).2⟩⟩
        · simp
  obtain ⟨hsorted, hrange⟩ := hloop size cache.block
  refine List.pairwise_append.mpr ⟨hsorted, ?_, fun x hx y hy => ?_⟩
  · split <;> simp
  · rw [Nat.mod_eq_of_lt (by omega)] at hy
    split at hy
    · obtain rfl := List.mem_singleton.mp hy
      exact (hrange x hx).2
    · cases hy

end PrefixCache

/-! ## What is stored -/

variable {K : Type*}

/-- Under the key of a sequence in play there are snapshots of that sequence only. -/
def Represents (zstd : Zstd) (models : Bytes → StatefulBackend K)
    (inPlay : Set (Bytes × List TokenId)) (key data : Bytes) : Prop :=
  ∀ pair ∈ inPlay, keyOf pair.1 pair.2 = key → IsSnapshot zstd (models pair.1) pair.2 data

theorem length_decimal_le {n : ℕ} (hn : n < 10 ^ 20) : (Wire.decimal n).length ≤ 20 := by
  rw [Wire.decimal, List.length_map]
  exact (Nat.length_toDigits_le_iff (by decide) (by decide)).mpr hn

/-- Keys are short. -/
theorem length_keyOf_lt (modelTag : Bytes) {tokens : List TokenId}
    (hlength : tokens.length ≤ 2 ^ 31) : (keyOf modelTag tokens).length < 2 ^ 32 := by
  have hhash : ∀ hash : UInt64, (Wire.decimal hash.toNat).length ≤ 20 :=
    fun hash => length_decimal_le (hash.toNat_lt.trans (by norm_num))
  have hfirst := hhash (checksum (keyMaterial modelTag tokens))
  have hsecond := hhash (checksum (keyMaterial modelTag tokens ++ ascii "x"))
  have hcount : (Wire.decimal tokens.length).length ≤ 20 :=
    length_decimal_le (hlength.trans_lt (by norm_num))
  have htexts : (ascii "pfx-").length = 4 ∧ (ascii "-").length = 1 ∧ (ascii "-n").length = 2 :=
    ⟨rfl, rfl, rfl⟩
  simp only [keyOf, hashedKey, List.length_append]
  omega

namespace PrefixCache

variable {cache : PrefixCache} {platform : Platform} {backend : StatefulBackend K} {zstd : Zstd}
  {good : Bytes → Bytes → Prop} {tokens : List TokenId}

section Sound

variable (hplatform : platform.WorksWith zstd) (hlength : tokens.length ≤ 2 ^ 31)
  (hgood : ∀ n entry, good (cache.keyFor tokens n) entry ↔
    IsSnapshot zstd backend (tokens.take n) entry)
include hplatform hlength hgood

/-- The longest-first loop: either nothing was restored, or the backend holds the
sequence up to the boundary returned. -/
theorem restoreLongest_spec :
    ∀ (marks : List ℕ) (m : CacheManager) (kv : KvState), (∀ b ∈ marks, 0 < b ∧ b ≤ tokens.length) →
      m.store.Sound good →
      ∃ restored m' kv', cache.restoreLongest platform backend tokens marks m kv =
          (restored, m', kv') ∧ m'.store.Sound good ∧
        ((restored = 0 ∧ m'.stats.hits = m.stats.hits) ∨
          (restored ∈ marks ∧ kv'.Holds (tokens.take restored) ∧
            m'.stats.hits = m.stats.hits + 1)) := by
  intro marks
  induction marks with
  | nil => exact fun m kv _ hsound => ⟨0, m, kv, rfl, hsound, .inl ⟨rfl, rfl⟩⟩
  | cons b rest ih =>
      intro m kv hmarks hsound
      have hb := hmarks b (List.mem_cons_self ..)
      have htaken : (tokens.take b).length < 2 ^ 32 := by
        rw [List.length_take]
        omega
      obtain ⟨hafter, hload⟩ := CacheManager.loadState_spec backend hplatform hsound
        (cache.keyFor tokens b) htaken (fun entry => (hgood b entry).mp) kv
      rw [restoreLongest]
      rcases hresult : m.loadState platform backend (cache.keyFor tokens b) kv
        with ⟨loaded, m', kv'⟩
      rw [hresult] at hafter hload
      rcases hload with ⟨hloaded, hholds, hhits⟩ | ⟨hloaded, hhits⟩
      · obtain rfl : loaded = true := hloaded
        exact ⟨b, m', kv', rfl, hafter, .inr ⟨List.mem_cons_self .., hholds, hhits⟩⟩
      · obtain rfl : loaded = false := hloaded
        obtain ⟨restored, m'', kv'', hrest, hsound'', hcases⟩ :=
          ih m' kv' (fun b hb => hmarks b (List.mem_cons_of_mem _ hb)) hafter
        refine ⟨restored, m'', kv'', hrest, hsound'', ?_⟩
        rcases hcases with ⟨hnone, hhits'⟩ | ⟨hmem, hholds, hhits'⟩
        · exact .inl ⟨hnone, hhits'.trans hhits⟩
        · exact .inr ⟨List.mem_cons_of_mem _ hmem, hholds, hhits' ▸ by rw [hhits]⟩

omit hplatform hgood in
/-- A block takes the backend from one position to the next. -/
theorem decodeAppend_block (backend : StatefulBackend K) {pos b : ℕ} (hlt : pos < b)
    (hb : b ≤ tokens.length) {kv : KvState} (hkv : kv.Holds (tokens.take pos)) :
    ∃ logits kv', backend.decodeAppend kv ((tokens.drop pos).take (b - pos)) = (.ok logits, kv') ∧
      kv'.Holds (tokens.take b) := by
  have hblock : tokens.take pos ++ (tokens.drop pos).take (b - pos) = tokens.take b := by
    rw [← List.take_add, Nat.add_sub_cancel' hlt.le]
  have hpart : ((tokens.drop pos).take (b - pos)).length = b - pos := by
    rw [List.length_take, List.length_drop]
    omega
  have hpart_ne : (tokens.drop pos).take (b - pos) ≠ [] := by
    rw [← List.length_pos_iff, hpart]
    omega
  obtain ⟨hlogits, hholds⟩ := backend.decodeAppend_holds hkv hpart_ne
    (by rw [hpart, List.length_take]; omega)
  rw [hblock] at hholds
  exact ⟨_, _, Prod.ext hlogits rfl, hholds⟩

/-- The block-wise loop keeps the backend at the last boundary crossed and stores
snapshots that represent what their keys say. -/
theorem decodeBlocks_spec {restored : ℕ} :
    ∀ (marks : List ℕ) (pos : ℕ) (m : CacheManager) (kv : KvState),
      marks.Pairwise (· < ·) → (∀ b ∈ marks, b ≤ tokens.length) →
      (∀ b ∈ marks, restored < b → pos < b) → kv.Holds (tokens.take pos) → pos ≤ tokens.length →
      m.store.Sound good →
      ∃ m' kv', cache.decodeBlocks platform backend tokens restored marks pos m
          kv = (.ok (), m', kv') ∧ m'.store.Sound good ∧
        m'.stats.hits = m.stats.hits ∧ ∃ last, kv'.Holds (tokens.take last) ∧
          pos ≤ last ∧ ∀ b ∈ marks, restored < b → b ≤ last := by
  intro marks
  induction marks with
  | nil =>
      exact fun pos m kv _ _ _ hkv _ hsound =>
        ⟨m, kv, rfl, hsound, rfl, pos, hkv, le_rfl, by simp⟩
  | cons b rest ih =>
      intro pos m kv hsorted hrange hahead hkv hpos hsound
      obtain ⟨hfirst, hsorted'⟩ := List.pairwise_cons.mp hsorted
      have hrange' : ∀ b ∈ rest, b ≤ tokens.length :=
        fun b hb => hrange b (List.mem_cons_of_mem _ hb)
      rw [decodeBlocks]
      split
      · rename_i hskip
        obtain ⟨m', kv', hrun, hsound', hhits, last, hlast, hbeyond, hcovers⟩ := ih pos m kv
          hsorted' hrange' (fun b hb => hahead b (List.mem_cons_of_mem _ hb)) hkv hpos hsound
        refine ⟨m', kv', hrun, hsound', hhits, last, hlast, hbeyond, ?_⟩
        rintro x hx hlt
        rcases List.mem_cons.mp hx with rfl | hx
        · omega
        · exact hcovers x hx hlt
      · rename_i hcross
        have hlt := hahead b (List.mem_cons_self ..) (not_le.mp hcross)
        have hb := hrange b (List.mem_cons_self ..)
        have htaken : (tokens.take b).length = b := List.length_take_of_le hb
        obtain ⟨logits, kv', hdecode, hholds⟩ := decodeAppend_block hlength backend
          hlt hb hkv
        rw [hdecode]
        dsimp only
        have hshort : (cache.keyFor tokens b).length < 2 ^ 32 :=
          length_keyOf_lt _ (by rw [htaken]; omega)
        obtain ⟨hstored, hhits⟩ :=
          CacheManager.storeState_sound backend hplatform hsound hshort hholds.1
          fun entry => (hgood b entry).mpr
        rw [htaken] at hstored hhits
        obtain ⟨m', kv'', hrun, hsound', hhits', last, hlast, hbeyond, hcovers⟩ := ih b _ kv'
          hsorted' hrange' (fun x hx _ => hfirst x hx) hholds hb hstored
        refine ⟨m', kv'', hrun, hsound', hhits'.trans hhits, last, hlast, by omega, ?_⟩
        rintro x hx hx'
        rcases List.mem_cons.mp hx with rfl | hx
        · exact hbeyond
        · exact hcovers x hx hx'

/-- `prefill` leaves the backend with exactly the tokens, returns the boundary it has
restored, zero without one, and keeps every stored snapshot what its key says. -/
theorem prefill_of_good (m : CacheManager) (kv : KvState) (hsound : m.store.Sound good) :
    ∃ restored m' kv',
      cache.prefill platform backend tokens m kv = (.ok restored, m', kv') ∧
      kv'.Holds tokens ∧ m'.store.Sound good ∧
      ((restored = 0 ∧ m'.stats.hits = m.stats.hits) ∨
        (restored ∈ cache.boundaries tokens.length ∧ m'.stats.hits = m.stats.hits + 1)) := by
  unfold prefill
  split
  · rename_i hnil
    subst hnil
    exact ⟨0, m, _, rfl, StatefulBackend.holds_reset kv, hsound, .inl ⟨rfl, rfl⟩⟩
  · rename_i hne
    have hmem : ∀ b ∈ cache.boundaries tokens.length, 0 < b ∧ b ≤ tokens.length := by
      intro b hb
      obtain ⟨hpos, hb⟩ := (cache.mem_boundaries hlength).mp hb
      omega
    obtain ⟨restored, m', kv', hrestore, hsound', hcases⟩ := restoreLongest_spec hplatform
      hlength hgood (cache.boundaries tokens.length).reverse m kv
      (fun b hb => hmem b (List.mem_reverse.mp hb)) hsound
    dsimp only
    rw [hrestore]
    dsimp only
    have hstart : (if restored = 0 then StatefulBackend.reset kv' else kv').Holds
        (tokens.take restored) ∧ restored ≤ tokens.length := by
      rcases hcases with ⟨rfl, -⟩ | ⟨hrestored, hholds, -⟩
      · exact ⟨by simpa using StatefulBackend.holds_reset kv', Nat.zero_le _⟩
      · have hrange := hmem restored (List.mem_reverse.mp hrestored)
        rw [if_neg (by omega)]
        exact ⟨hholds, hrange.2⟩
    obtain ⟨m'', kv'', hrun, hsound'', hhits, last, hlast, hbeyond, hcovers⟩ := decodeBlocks_spec
      hplatform hlength hgood (cache.boundaries tokens.length) restored m' _
      (cache.boundaries_sorted hlength) (fun b hb => (hmem b hb).2) (fun _ _ hb => hb) hstart.1
      hstart.2 hsound'
    rw [hrun]
    refine ⟨restored, m'', kv'', rfl, ?_, hsound'', ?_⟩
    · -- The length itself is a boundary, so the loop ends there.
      have hfull : tokens.length ≤ last := by
        rcases hstart.2.lt_or_eq with hshort | hall
        · exact hcovers _ ((cache.mem_boundaries hlength).mpr
            ⟨List.length_pos_iff.mpr hne, .inl rfl⟩) hshort
        · omega
      rwa [List.take_of_length_le hfull] at hlast
    · rw [hhits]
      exact hcases.imp_right fun ⟨hrestored, _, hhits⟩ => ⟨List.mem_reverse.mp hrestored, hhits⟩

end Sound

section Represents

variable {models : Bytes → StatefulBackend K} {inPlay : Set (Bytes × List TokenId)}
  (hinj : Set.InjOn (fun pair : Bytes × List TokenId => keyOf pair.1 pair.2) inPlay)
  (hplay : ∀ n, (cache.modelTag, tokens.take n) ∈ inPlay)
include hinj hplay

/-- For the prefixes of a sequence in play. -/
theorem represents_iff (n : ℕ) (entry : Bytes) :
    Represents zstd models inPlay (cache.keyFor tokens n) entry ↔
      IsSnapshot zstd (models cache.modelTag) (tokens.take n) entry := by
  refine ⟨fun hentry => hentry (cache.modelTag, tokens.take n) (hplay n) rfl,
    fun hentry pair hpair hkey => ?_⟩
  obtain rfl : pair = (cache.modelTag, tokens.take n) := hinj hpair (hplay n) hkey
  exact hentry

/-- A prefill in a directory where the snapshots of the sequences in play represent them. -/
theorem prefill_spec (hplatform : platform.WorksWith zstd) (hlength : tokens.length ≤ 2 ^ 31)
    (m : CacheManager) (kv : KvState) (hsound : m.store.Sound (Represents zstd models inPlay)) :
    ∃ restored m' kv',
      cache.prefill platform (models cache.modelTag) tokens m kv = (.ok restored, m', kv') ∧
      kv'.Holds tokens ∧ m'.store.Sound (Represents zstd models inPlay) ∧
      ((restored = 0 ∧ m'.stats.hits = m.stats.hits) ∨
        (restored ∈ cache.boundaries tokens.length ∧ m'.stats.hits = m.stats.hits + 1)) :=
  prefill_of_good hplatform hlength (represents_iff hinj hplay) m kv hsound

end Represents

end PrefixCache

end Reame.Cache
