import Reame.Engine.Classic

/-!
# The disk cache is transparent

Histories of a cache directory: processes open it one after the other, each with its own
model, block size, byte budget and compression; they prefill prompts, entries are evicted,
other components store entries of their own, reads fail, writes fail and are noticed, restores
fail and clobber the backend.

Through all of it every snapshot stays what its key says (`sound_history`).  So a prefill
always leaves the backend with the tokens it was given, and the classic path replies as it
would without the cache (`prefix_cache_transparent`).
-/

namespace Reame.Engine

open Reame.Core Reame.Cache

variable {K : Type*}

/-- A process that uses the cache directory. -/
structure Process where
  platform : Platform
  cache : PrefixCache
  maxBytes : ℕ
  compressed : Bool

/-- What happens to an open cache.  `prefill` starts from whatever the backend holds;
`store` is an entry of another component, such as a session snapshot. -/
inductive CacheOp
  | prefill (tokens : List TokenId) (kv : KvState)
  | evict (key : Bytes)
  | store (key data : Bytes)

/-- The process opens the directory. -/
def Process.launch (process : Process) (disk : Disk) : OpenCache where
  cache := process.cache
  platform := process.platform
  manager := .new process.platform process.maxBytes process.compressed disk

variable (models : Bytes → StatefulBackend K)

/-- One thing that happens; the model of a process goes with its tag. -/
def OpenCache.apply (c : OpenCache) : CacheOp → OpenCache
  | .prefill tokens kv =>
      { c with manager :=
        (c.cache.prefill c.platform (models c.cache.modelTag) tokens c.manager kv).2.1 }
  | .evict key =>
      { c with manager := { c.manager with store := (c.manager.store.remove key).2 } }
  | .store key data =>
      { c with manager := { c.manager with store := (c.manager.store.put c.platform.fs key data).2 } }

/-- Several things in a row. -/
def OpenCache.run (c : OpenCache) (ops : List CacheOp) : OpenCache := ops.foldl (·.apply models) c

/-- The directory after some processes have used it, one after the other. -/
def directoryAfter (disk : Disk) (sessions : List (Process × List CacheOp)) : Disk :=
  sessions.foldl (fun disk session =>
    ((session.1.launch disk).run models session.2).manager.store.disk) disk

/-- A request to `generate_stream`, with what happens to the cache before it. -/
structure Request (K : Type*) where
  before : List CacheOp
  prompt : Bytes
  gen : GenerationConfig K
  callback : TextCallback

/-- The replies to a sequence of requests. -/
def serve [Field K] [LinearOrder K] (lib : StdLib K) (backend : StatefulBackend K) :
    ClassicMemory → List (Request K) → List Reply
  | _, [] => []
  | memory, r :: rest =>
      let memory := { memory with cache := memory.cache.map (·.run models r.before) }
      let (reply, memory) := classicStream lib backend memory r.prompt r.gen r.callback
      reply :: serve lib backend memory rest

/-! ## The sequences in play -/

/-- The prefixes of a token sequence are in play. -/
def PrefixesInPlay (inPlay : Set (Bytes × List TokenId)) (modelTag : Bytes)
    (tokens : List TokenId) : Prop := ∀ n, (modelTag, tokens.take n) ∈ inPlay

/-- What may happen: prefills of sequences in play, and entries under other keys. -/
def CacheOp.InPlay (inPlay : Set (Bytes × List TokenId)) (modelTag : Bytes) : CacheOp → Prop
  | .prefill tokens _ => tokens.length ≤ 2 ^ 31 ∧ PrefixesInPlay inPlay modelTag tokens
  | .evict _ => True
  | .store key _ => key.length < 2 ^ 32 ∧ ∀ pair ∈ inPlay, keyOf pair.1 pair.2 ≠ key

/-- A process that fits: built with the one zstd or without, on a file system that does not lose
writes unnoticed, and in play. -/
def Fits (zstd : Zstd) (inPlay : Set (Bytes × List TokenId)) (process : Process)
    (ops : List CacheOp) : Prop :=
  process.platform.WorksWith zstd ∧ ∀ op ∈ ops, op.InPlay inPlay process.cache.modelTag

/-! ## Histories -/

section Sound

variable {models} {zstd : Zstd} {inPlay : Set (Bytes × List TokenId)}

/-- An open cache whose directory holds what its keys say. -/
structure SoundCache (zstd : Zstd) (models : Bytes → StatefulBackend K)
    (inPlay : Set (Bytes × List TokenId)) (c : OpenCache) : Prop where
  platform : c.platform.WorksWith zstd
  store : c.manager.store.Sound (Represents zstd models inPlay)

variable (hinj : Set.InjOn (fun pair : Bytes × List TokenId => keyOf pair.1 pair.2) inPlay)
include hinj

theorem SoundCache.apply {c : OpenCache} (hsound : SoundCache zstd models inPlay c) {op : CacheOp}
    (hop : op.InPlay inPlay c.cache.modelTag) :
    SoundCache zstd models inPlay (c.apply models op) ∧ (c.apply models op).cache = c.cache := by
  cases op with
  | prefill tokens kv =>
      obtain ⟨hlength, hplay⟩ := hop
      obtain ⟨restored, m, kv', hprefill, -, hstore, -⟩ := PrefixCache.prefill_spec hinj hplay
        hsound.platform hlength c.manager kv hsound.store
      refine ⟨⟨hsound.platform, ?_⟩, rfl⟩
      simp only [OpenCache.apply, hprefill]
      exact hstore
  | evict key => exact ⟨⟨hsound.platform, hsound.store.remove key⟩, rfl⟩
  | store key data =>
      obtain ⟨hlength, hother⟩ := hop
      refine ⟨⟨hsound.platform, hsound.store.put c.platform.fs (hsound.platform.noticed _)
        hlength ?_⟩, rfl⟩
      exact fun pair hpair hkey => absurd hkey (hother pair hpair)

theorem SoundCache.run {c : OpenCache} (hsound : SoundCache zstd models inPlay c)
    {ops : List CacheOp} (hops : ∀ op ∈ ops, op.InPlay inPlay c.cache.modelTag) :
    SoundCache zstd models inPlay (c.run models ops) ∧ (c.run models ops).cache = c.cache := by
  induction ops generalizing c with
  | nil => exact ⟨hsound, rfl⟩
  | cons op rest ih =>
      obtain ⟨hsound', hcache⟩ := hsound.apply hinj (hops op (List.mem_cons_self ..))
      obtain ⟨hsound'', hcache'⟩ := ih hsound' fun op hop => by
        rw [hcache]
        exact hops op (List.mem_cons_of_mem _ hop)
      exact ⟨hsound'', hcache'.trans hcache⟩

/-- Every history of the directory leaves it sound. -/
theorem sound_history {sessions : List (Process × List CacheOp)} {disk : Disk}
    (hdisk : disk.Sound (Represents zstd models inPlay))
    (hsessions : ∀ session ∈ sessions, Fits zstd inPlay session.1 session.2) :
    (directoryAfter models disk sessions).Sound (Represents zstd models inPlay) := by
  induction sessions generalizing disk with
  | nil => exact hdisk
  | cons session rest ih =>
      refine ih ?_ fun session hsession => hsessions session (List.mem_cons_of_mem _ hsession)
      obtain ⟨hplatform, hops⟩ := hsessions session (List.mem_cons_self ..)
      have hopened : SoundCache zstd models inPlay (session.1.launch disk) :=
        ⟨hplatform, DiskStore.sound_reopen _ _ hdisk⟩
      exact (hopened.run hinj hops).1.store.toSound

/-! ## Requests -/

omit hinj in
/-- With a cache whose snapshots of the prompt are what their keys say, the prefill gives the logits
of the prompt and a backend that holds it. -/
theorem prefillPrompt_of_good {good : Bytes → Bytes → Prop} {backend : StatefulBackend K}
    {memory : ClassicMemory} {c : OpenCache} (hcache : memory.cache = some c)
    (hplatform : c.platform.WorksWith zstd) (hsound : c.manager.store.Sound good)
    {tokens : List TokenId}
    (hne : tokens ≠ []) (hlength : tokens.length ≤ 2 ^ 31)
    (hgood : ∀ n entry, good (c.cache.keyFor tokens.dropLast n) entry ↔
      IsSnapshot zstd backend (tokens.dropLast.take n) entry) :
    ∃ kv manager, prefillPrompt backend memory tokens = (.ok (backend.logits tokens),
        { memory with kv, cache := some { c with manager } }) ∧
      kv.Holds tokens ∧ manager.store.Sound good := by
  have hshort : tokens.dropLast.length < 2 ^ 31 := by
    have hpos := List.length_pos_iff.mpr hne
    rw [List.length_dropLast]
    omega
  obtain ⟨restored, manager, kv, hprefill, hholds, hstore, -⟩ := PrefixCache.prefill_of_good hplatform
    hshort.le hgood c.manager memory.kv hsound
  have hlast : tokens.dropLast ++ [tokens.getLastD 0] = tokens := by
    rw [List.getLastD_eq_getLast?, List.getLast?_eq_some_getLast hne, Option.getD_some]
    exact List.dropLast_append_getLast hne
  obtain ⟨kv', hdecode, hholds'⟩ := backend.decodeAppend_next hholds (tokens.getLastD 0) hshort
  rw [hlast] at hdecode hholds'
  refine ⟨kv', manager, ?_, hholds', hstore⟩
  rw [prefillPrompt, hcache]
  dsimp only
  rw [hprefill]
  dsimp only
  rw [hdecode]

/-- With a sound cache the prefill gives the logits of the prompt and a backend that holds
it. -/
theorem prefillPrompt_cached {memory : ClassicMemory} {c : OpenCache}
    (hcache : memory.cache = some c) (hsound : SoundCache zstd models inPlay c)
    {tokens : List TokenId} (hne : tokens ≠ []) (hlength : tokens.length ≤ 2 ^ 31)
    (hplay : PrefixesInPlay inPlay c.cache.modelTag tokens.dropLast) :
    ∃ memory' c', prefillPrompt (models c.cache.modelTag) memory tokens =
        (.ok ((models c.cache.modelTag).logits tokens), memory') ∧ memory'.kv.Holds tokens ∧
      memory'.cache = some c' ∧ SoundCache zstd models inPlay c' ∧ c'.cache = c.cache := by
  obtain ⟨kv, manager, hprefill, hholds, hstore⟩ := prefillPrompt_of_good hcache hsound.platform
    hsound.store hne hlength (PrefixCache.represents_iff hinj hplay)
  exact ⟨_, { c with manager }, hprefill, hholds, rfl, ⟨hsound.platform, hstore⟩, rfl⟩

variable [Field K] [LinearOrder K]

/-- One generation: the same reply, and a cache that is still sound. -/
theorem classicGenerate_cached (lib : StdLib K) {memory : ClassicMemory} {c : OpenCache}
    (hcache : memory.cache = some c) (hsound : SoundCache zstd models inPlay c)
    {tokens : List TokenId} (hne : tokens ≠ []) (hlength : tokens.length ≤ 2 ^ 31)
    (hplay : PrefixesInPlay inPlay c.cache.modelTag tokens.dropLast) (echoed : List Bytes)
    (gen : GenerationConfig K) (callback : TextCallback) {plain : ClassicMemory}
    (hplain : plain.cache = none) :
    (classicGenerate lib (models c.cache.modelTag) memory tokens echoed gen callback).1 =
        (classicGenerate lib (models c.cache.modelTag) plain tokens echoed gen callback).1 ∧
      (∃ c', (classicGenerate lib (models c.cache.modelTag) memory tokens echoed gen
          callback).2.cache = some c' ∧ SoundCache zstd models inPlay c' ∧ c'.cache = c.cache) ∧
      (classicGenerate lib (models c.cache.modelTag) plain tokens echoed gen callback).2.cache =
        none := by
  obtain ⟨memory', c', hprefill, hholds, hcache', hsound', hsame⟩ :=
    prefillPrompt_cached hinj hcache hsound hne hlength hplay
  obtain ⟨hprefill', hholds'⟩ := prefillPrompt_plain (models c.cache.modelTag) hplain hne hlength
  rw [classicGenerate, classicGenerate, hprefill, hprefill']
  refine ⟨?_, ⟨c', hcache', hsound', hsame⟩, hplain⟩
  exact (classicLoop_agrees lib (models c.cache.modelTag) callback gen.maxTokens.toNat
    ⟨tokens, _, memory'.kv, Sampler.new lib gen, echoed⟩ _ hlength hholds hholds').1

/-- One request. -/
theorem classicStream_cached (lib : StdLib K) {memory : ClassicMemory} {c : OpenCache}
    (hcache : memory.cache = some c) (hsound : SoundCache zstd models inPlay c) (prompt : Bytes)
    (gen : GenerationConfig K) (callback : TextCallback)
    (hplay : PrefixesInPlay inPlay c.cache.modelTag
      ((models c.cache.modelTag).tokenize prompt true).dropLast)
    {plain : ClassicMemory} (hplain : plain.cache = none) :
    (classicStream lib (models c.cache.modelTag) memory prompt gen callback).1 =
        (classicStream lib (models c.cache.modelTag) plain prompt gen callback).1 ∧
      (∃ c', (classicStream lib (models c.cache.modelTag) memory prompt gen callback).2.cache =
          some c' ∧ SoundCache zstd models inPlay c' ∧ c'.cache = c.cache) ∧
      (classicStream lib (models c.cache.modelTag) plain prompt gen callback).2.cache = none := by
  unfold classicStream
  split
  · exact ⟨rfl, ⟨c, hcache, hsound, rfl⟩, hplain⟩
  · rename_i tokens echoed hopen
    obtain ⟨htokens, hne, hfits⟩ := openRequest_inr hopen
    rw [← htokens] at hplay
    exact classicGenerate_cached hinj lib hcache hsound hne
      (hfits.trans (models c.cache.modelTag).contextLength_le) hplay echoed gen callback hplain

/-- A sequence of requests gets the replies it would get without a cache. -/
theorem serve_cached (lib : StdLib K) {modelTag : Bytes} (requests : List (Request K)) :
    ∀ {memory plain : ClassicMemory} {c : OpenCache}, memory.cache = some c →
      SoundCache zstd models inPlay c → c.cache.modelTag = modelTag → plain.cache = none →
      (∀ r ∈ requests, (∀ op ∈ r.before, op.InPlay inPlay modelTag) ∧
        PrefixesInPlay inPlay modelTag ((models modelTag).tokenize r.prompt true).dropLast) →
      serve models lib (models modelTag) memory requests =
        serve models lib (models modelTag) plain requests := by
  induction requests with
  | nil => intros; rfl
  | cons r rest ih =>
      intro memory plain c hcache hsound htag hplain hplay
      subst htag
      obtain ⟨hops, hprompt⟩ := hplay r (List.mem_cons_self ..)
      obtain ⟨hsound', hsame⟩ := hsound.run hinj hops
      have hcache' : ({ memory with cache := memory.cache.map (·.run models r.before) } :
          ClassicMemory).cache = some (c.run models r.before) := by rw [hcache]; rfl
      have hplain' : ({ plain with cache := plain.cache.map (·.run models r.before) } :
          ClassicMemory).cache = none := by rw [hplain]; rfl
      obtain ⟨hreply, ⟨c', hcache'', hsound'', hsame'⟩, hplain''⟩ := classicStream_cached hinj lib
        hcache' hsound' r.prompt r.gen r.callback (by rw [hsame]; exact hprompt) hplain'
      rw [hsame] at hreply hcache'' hplain'' hsame'
      rw [serve, serve]
      dsimp only
      rw [hreply]
      congr 1
      exact ih hcache'' hsound'' (by rw [hsame']) hplain''
        fun r hr => hplay r (List.mem_cons_of_mem _ hr)

omit hinj [Field K] [LinearOrder K] in
/-- An open cache keeps its configuration. -/
theorem run_config (c : OpenCache) (ops : List CacheOp) :
    (c.run models ops).cache = c.cache ∧ (c.run models ops).platform = c.platform := by
  induction ops generalizing c with
  | nil => exact ⟨rfl, rfl⟩
  | cons op rest ih =>
      obtain ⟨hcache, hplatform⟩ := ih (c.apply models op)
      have happly : (c.apply models op).cache = c.cache ∧
          (c.apply models op).platform = c.platform := by cases op <;> exact ⟨rfl, rfl⟩
      exact ⟨hcache.trans happly.1, hplatform.trans happly.2⟩

variable (models) in
/-- Whatever has happened to the directory, in earlier processes and in this one: a
prefill leaves the backend with exactly its tokens, returns a boundary, zero exactly when
nothing was restored, and leaves under the key of each boundary a snapshot of the tokens
up to it; and requests are answered as they would be without the cache. -/
theorem prefix_cache_transparent {earlier : List (Process × List CacheOp)}
    (hearlier : ∀ session ∈ earlier, Fits zstd inPlay session.1 session.2) {process : Process}
    {ops : List CacheOp} (hprocess : Fits zstd inPlay process ops) :
    let c := (process.launch (directoryAfter models ⟨[], 0⟩ earlier)).run models ops
    let backend := models process.cache.modelTag
    (∀ tokens kv, tokens.length ≤ 2 ^ 31 → PrefixesInPlay inPlay process.cache.modelTag tokens →
      ∃ restored m kv',
        process.cache.prefill process.platform backend tokens c.manager kv =
          (.ok restored, m, kv') ∧
        kv'.Holds tokens ∧
        (restored = 0 ∨ restored ∈ process.cache.boundaries tokens.length) ∧
        (restored = 0 ↔ m.stats.hits = c.manager.stats.hits) ∧
        ∀ b ∈ process.cache.boundaries tokens.length, ∀ item ∈ m.store.disk.files, ∀ data,
          item.2.content = encodeFile (process.cache.keyFor tokens b) data →
            IsSnapshot zstd backend (tokens.take b) data) ∧
      ∀ (lib : StdLib K) (requests : List (Request K)) (kv kv' : KvState)
        (context context' : List TokenId),
        (∀ r ∈ requests, (∀ op ∈ r.before, op.InPlay inPlay process.cache.modelTag) ∧
          PrefixesInPlay inPlay process.cache.modelTag (backend.tokenize r.prompt true).dropLast) →
        serve models lib backend ⟨kv, some c, context⟩ requests =
          serve models lib backend ⟨kv', none, context'⟩ requests := by
  intro c backend
  obtain ⟨hplatform, hops⟩ := hprocess
  have hempty : (⟨[], 0⟩ : Disk).Sound (Represents zstd models inPlay) :=
    ⟨List.nodup_nil, by simp⟩
  have hopened : SoundCache zstd models inPlay
      (process.launch (directoryAfter models ⟨[], 0⟩ earlier)) :=
    ⟨hplatform, DiskStore.sound_reopen _ _ (sound_history hinj hempty hearlier)⟩
  have hsound : SoundCache zstd models inPlay c := (hopened.run hinj hops).1
  have hcache : c.cache = process.cache := (run_config _ ops).1
  refine ⟨fun tokens kv hlength hplay => ?_, fun lib requests kv kv' context context' hplay => ?_⟩
  · obtain ⟨restored, m, kv', hprefill, hholds, hstore, hcases⟩ := PrefixCache.prefill_spec hinj
      hplay hplatform hlength c.manager kv hsound.store
    refine ⟨restored, m, kv', hprefill, hholds, hcases.imp And.left And.left, ?_, ?_⟩
    · rcases hcases with ⟨hnone, hhits⟩ | ⟨hmem, hhits⟩
      · exact iff_of_true hnone hhits
      · have hpos := ((process.cache.mem_boundaries hlength).mp hmem).1
        constructor <;> intro <;> omega
    · intro b hb item hitem data hcontent
      have hshort : (process.cache.keyFor tokens b).length < 2 ^ 32 := by
        refine length_keyOf_lt _ ?_
        rw [List.length_take]
        omega
      obtain ⟨key, data', -, hcontent', hkey, hrepresents⟩ := hstore.files item hitem
      obtain ⟨rfl, rfl⟩ := encodeFile_inj hshort hkey (hcontent.symm.trans hcontent')
      exact hrepresents (process.cache.modelTag, tokens.take b) (hplay b) rfl
  · exact serve_cached hinj lib requests rfl hsound (by rw [hcache]) rfl hplay

end Sound

/-! ## An example -/

/-- A backend over two tokens that prefers the first; its blobs are as long as the code
of the cells. -/
def blobBackend : StatefulBackend ℚ where
  vocabSize := 2
  contextLength := 8
  eosToken := 1
  isEog token := token == 1
  logits _ := [1, 0]
  tokenize _ _ := []
  detokenize _ := []
  tokenPiece _ := []
  vocabSize_pos := Nat.two_pos
  length_logits _ := LlamaBackend.length_firstOfTwo
  attend _ := [1, 0]
  stateData cells := List.replicate (Encodable.encode cells) 0
  parseState data := Encodable.decode data.length
  restoreFails _ := false
  clobbered _ := []
  attend_zipIdx _ := rfl
  length_attend _ := LlamaBackend.length_firstOfTwo
  parseState_stateData := decode_length_zeros
  contextLength_le := eight_le_contextLimit

theorem blobBackend_vocabSize_pos : 0 < blobBackend.vocabSize := Nat.two_pos

theorem blobBackend_length_logits (kv : List TokenId) :
    (blobBackend.logits kv).length = blobBackend.vocabSize := rfl

/-- A zstd that stores. -/
def storingZstd : Zstd where
  compress data := data
  frameContentSize frame := some frame.length
  decompress frame _ := some frame
  frameContentSize_compress _ := rfl
  decompress_compress _ := rfl

/-- A process with the given block size that compresses, on a disk where nothing fails. -/
def exampleProcess (blockTokens : ℤ) (hblock : blockTokens < 2 ^ 31) : Process where
  platform := ⟨.faultless, some storingZstd⟩
  cache := ⟨[], blockTokens, hblock⟩
  maxBytes := 0
  compressed := true

/-- The sequences in play when only `[0, 0]` is prefilled. -/
def twoTokensInPlay : Set (Bytes × List TokenId) := {pair | pair.1 = [] ∧ pair.2 <+: [0, 0]}

/-- A process with a large block size after one with block size one. -/
theorem prefix_cache_transparent_second_process :
    let models := fun _ : Bytes => blobBackend
    let first : Process × List CacheOp :=
      (exampleProcess 1 (by decide), [.prefill [0, 0] ⟨[], 0, 0⟩])
    let second := exampleProcess 256 (by decide)
    let c := (second.launch (directoryAfter models ⟨[], 0⟩ [first])).run models []
    ∃ restored m kv, second.cache.prefill second.platform blobBackend [0, 0] c.manager
      ⟨[(7, 3)], 9, 0⟩ = (.ok restored, m, kv) ∧ kv.Holds [0, 0] := by
  intro models first second c
  have hpairs : ∀ pair ∈ twoTokensInPlay, pair = ([], []) ∨ pair = ([], [0]) ∨
      pair = ([], [0, 0]) := by
    rintro ⟨tag, tokens⟩ ⟨rfl, hpre⟩
    obtain ⟨n, rfl⟩ : ∃ n, tokens = [0, 0].take n := ⟨_, List.prefix_iff_eq_take.mp hpre⟩
    match n with
    | 0 => exact .inl rfl
    | 1 => exact .inr (.inl rfl)
    | n + 2 => exact .inr (.inr (by simp))
  have hinj : Set.InjOn (fun pair : Bytes × List TokenId => keyOf pair.1 pair.2)
      twoTokensInPlay := by
    have hkeys : keyOf [] [] ≠ keyOf [] [0] ∧ keyOf [] [] ≠ keyOf [] [0, 0] ∧
        keyOf [] [0] ≠ keyOf [] [0, 0] := by decide +kernel
    intro p hp q hq hkey
    rcases hpairs p hp with rfl | rfl | rfl <;> rcases hpairs q hq with rfl | rfl | rfl <;>
      first | rfl | exact absurd hkey (by tauto)
  have hplay : PrefixesInPlay twoTokensInPlay [] [0, 0] := fun n => ⟨rfl, List.take_prefix _ _⟩
  have hfirst : ∀ session ∈ [first], Fits storingZstd twoTokensInPlay session.1 session.2 := by
    intro session hsession
    obtain rfl := List.mem_singleton.mp hsession
    refine ⟨⟨.inr rfl, fun _ _ => rfl⟩, fun op hop => ?_⟩
    obtain rfl := List.mem_singleton.mp hop
    exact ⟨by decide, hplay⟩
  have hsecond : Fits storingZstd twoTokensInPlay second [] :=
    ⟨⟨.inr rfl, fun _ _ => rfl⟩, by simp⟩
  obtain ⟨hprefill, -⟩ := prefix_cache_transparent models hinj hfirst hsecond
  obtain ⟨restored, m, kv, hrun, hholds, -⟩ := hprefill [0, 0] ⟨[(7, 3)], 9, 0⟩ (by decide) hplay
  exact ⟨restored, m, kv, hrun, hholds⟩

end Reame.Engine
