import Reame.Engine.WarmAhead
import Reame.Foundation.Runs

/-!
# Sessions

A session is a named snapshot of `context_tokens`.  With a disk cache `save_session` also
stores the state of the backend, and `load_session` restores it; without one, or when the
snapshot is gone, it decodes the tokens again.

The two ways to load agree as long as the KV cache holds `context_tokens` when a session
is saved, and that is not always so:

* `generate_stream` pushes a token and then ends without decoding it, when the budget is
  spent or the context is full (`classicLoop_kv`);
* `warm` with a cache fills the KV cache and leaves `context_tokens` alone;
* a load of a session without tokens empties `context_tokens` and leaves the KV cache alone.

In every run that saves with a cache only where the two agree, and loads an empty session
only where the KV cache is empty, a load restores what was saved, with the cache as without
(`sessions_restored`); no write of a snapshot may fail unnoticed.
-/

namespace Reame.Engine

open Reame.Core Reame.Cache

variable {K : Type*}

/-! ## The calls -/

/-- The text of a byte string, byte by byte. -/
def textOf (bytes : Bytes) : String := String.ofList (bytes.map fun b => Char.ofNat b.toNat)

/-- `Impl`, as far as it changes on the classic path. -/
structure EngineMemory extends ClassicMemory where
  sessions : List (Bytes × List TokenId)
  nextSessionId : ℕ

/-- A fresh engine. -/
def EngineMemory.initial (kv : KvState) (cache : Option OpenCache) : EngineMemory :=
  ⟨⟨kv, cache, []⟩, [], 1⟩

/-- The tag under which the snapshots of a session are kept. -/
def sessionTag (modelTag id : Bytes) : Bytes := modelTag ++ ascii "/session/" ++ id

/-- `session_cache_key`. -/
def sessionCacheKey (modelTag id : Bytes) (tokens : List TokenId) : Bytes :=
  makeKey (sessionTag modelTag id) tokens

/-- `create_session`; `next_session_id` is a `std::uint64_t`, and `emplace` leaves an entry that is
there alone. -/
def createSession (memory : EngineMemory) : Bytes × EngineMemory :=
  let id := ascii "sess-" ++ Wire.decimal memory.nextSessionId
  (id, { memory with
    nextSessionId := (memory.nextSessionId + 1) % 2 ^ 64
    sessions := if (memory.sessions.lookup id).isSome then memory.sessions
      else (id, []) :: memory.sessions })

/-- `EngineError("unknown session: " + id)`. -/
def unknownSession (id : Bytes) : Fault := .engineError ("unknown session: " ++ textOf id)

section Calls

variable (modelTag : Bytes) (backend : StatefulBackend K)

/-- `save_session`. -/
def saveSession (memory : EngineMemory) (id : Bytes) : Except Fault Unit × EngineMemory :=
  match memory.sessions.lookup id with
  | none => (.error (unknownSession id), memory)
  | some _ =>
      let tokens := memory.contextTokens
      let saved := { memory with
        sessions := memory.sessions.map fun item => if item.1 = id then (id, tokens) else item }
      match memory.cache with
      | some c =>
          if tokens ≠ [] then
            let (_, manager) := c.manager.storeState c.platform backend
              (sessionCacheKey modelTag id tokens) memory.kv (tokens.length % 2 ^ 32)
            (.ok (), { saved with cache := some { c with manager } })
          else (.ok (), saved)
      | none => (.ok (), saved)

/-- The attempt of `load_session` to restore a snapshot. -/
def restoreSession (memory : ClassicMemory) (id : Bytes) (tokens : List TokenId) :
    Bool × ClassicMemory :=
  match memory.cache with
  | some c =>
      let (restored, manager, kv) := c.manager.loadState c.platform backend
        (sessionCacheKey modelTag id tokens) memory.kv
      (restored, { memory with kv, cache := some { c with manager } })
  | none => (false, memory)

/-- `load_session`. -/
def loadSession (memory : EngineMemory) (id : Bytes) : Except Fault Unit × EngineMemory :=
  match memory.sessions.lookup id with
  | none => (.error (unknownSession id), memory)
  | some tokens =>
      if tokens = [] then (.ok (), { memory with contextTokens := tokens })
      else
        match restoreSession modelTag backend memory.toClassicMemory id tokens with
        | (true, classic) =>
            (.ok (), { memory with toClassicMemory := { classic with contextTokens := tokens } })
        | (false, classic) =>
            match backend.decode classic.kv tokens with
            | (.error fault, kv) =>
                (.error fault, { memory with toClassicMemory := { classic with kv } })
            | (.ok _, kv) =>
                (.ok (), { memory with toClassicMemory :=
                  { classic with kv, contextTokens := tokens } })

/-- `delete_session`. -/
def deleteSession (memory : EngineMemory) (id : Bytes) : Except Fault Unit × EngineMemory :=
  match memory.sessions.lookup id with
  | none => (.error (unknownSession id), memory)
  | some _ => (.ok (), { memory with sessions := memory.sessions.filter (·.1 ≠ id) })

end Calls

/-- The calls that a classic engine takes. -/
inductive ClassicCall (K : Type*)
  | generate (prompt : Bytes) (gen : GenerationConfig K) (callback : TextCallback)
  | warm (prompt : Bytes)
  | createSession
  | saveSession (id : Bytes)
  | loadSession (id : Bytes)
  | deleteSession (id : Bytes)

variable [Field K] [LinearOrder K]

/-- An engine on the classic path: what stays the same over its life. -/
structure ClassicEngine (K : Type*) [Field K] [LinearOrder K] where
  lib : StdLib K
  modelTag : Bytes
  backend : StatefulBackend K

namespace ClassicEngine

variable (engine : ClassicEngine K)

/-- The state after a call. -/
def apply (memory : EngineMemory) : ClassicCall K → EngineMemory
  | .generate prompt gen callback =>
      { memory with toClassicMemory :=
        (classicStream engine.lib engine.backend memory.toClassicMemory prompt gen callback).2 }
  | .warm prompt =>
      { memory with toClassicMemory := (warm engine.backend memory.toClassicMemory prompt).2 }
  | .createSession => (createSession memory).2
  | .saveSession id => (saveSession engine.modelTag engine.backend memory id).2
  | .loadSession id => (loadSession engine.modelTag engine.backend memory id).2
  | .deleteSession id => (deleteSession memory id).2

/-- What was saved last under each session. -/
abbrev SavedTokens := Bytes → Option (List TokenId)

/-- What a call changes in it: a session is saved, or is gone. -/
def record (memory : EngineMemory) (saved : SavedTokens) : ClassicCall K → SavedTokens
  | .saveSession id =>
      if (memory.sessions.lookup id).isSome then
        Function.update saved id (some memory.contextTokens)
      else saved
  | .deleteSession id => Function.update saved id none
  | _ => saved

/-- A call, with what has been saved so far. -/
def applyRecording (state : EngineMemory × SavedTokens) (call : ClassicCall K) :
    EngineMemory × SavedTokens :=
  (engine.apply state.1 call, record state.1 state.2 call)

/-! ## What the snapshots stand for -/

/-- A call that takes `context_tokens` for what the KV cache holds only where it is so.  With a
cache, `save_session` takes its blob from the cells; and a load of a session without tokens leaves
them as they are. -/
def Faithful (memory : EngineMemory) : ClassicCall K → Prop
  | .saveSession id => (memory.sessions.lookup id).isSome → memory.cache.isSome →
      memory.contextTokens = [] ∨ memory.kv.cells = memory.contextTokens.zipIdx
  | .loadSession id => memory.sessions.lookup id = some [] → memory.kv.Holds []
  | _ => True

instance (memory : EngineMemory) : (call : ClassicCall K) → Decidable (Faithful memory call)
  | .saveSession _ => inferInstanceAs (Decidable (_ → _ → _ ∨ _))
  | .loadSession _ => inferInstanceAs (Decidable (_ → _))
  | .generate .. | .warm _ | .createSession | .deleteSession _ => inferInstanceAs (Decidable True)

end ClassicEngine

/-- The token sequences whose snapshots a run stores or looks for, under the keys of the prefix
cache and under those of the sessions. -/
structure SnapshotsInUse where
  prefixes : Set (List TokenId)
  sessions : Set (Bytes × List TokenId)

/-- No two of them have the same key. -/
structure KeysApart (modelTag : Bytes) (used : SnapshotsInUse) : Prop where
  prefixes : Set.InjOn (keyOf modelTag) used.prefixes
  sessions : Set.InjOn (fun pair => sessionCacheKey modelTag pair.1 pair.2) used.sessions

namespace ClassicEngine

variable (engine : ClassicEngine K)

/-- The snapshots that a call may need are in use. -/
def Covers (used : SnapshotsInUse) (memory : EngineMemory) : ClassicCall K → Prop
  | .generate prompt _ _ => ∀ n, (engine.backend.tokenize prompt true).dropLast.take n ∈ used.prefixes
  | .warm prompt => ∀ n, (engine.backend.tokenize prompt true).take n ∈ used.prefixes
  | .saveSession id => (id, memory.contextTokens) ∈ used.sessions
  | _ => True

/-- What is stored under the keys in use is what they say. -/
def Trusted (zstd : Zstd) (used : SnapshotsInUse) (key data : Bytes) : Prop :=
  (∀ tokens ∈ used.prefixes, keyOf engine.modelTag tokens = key →
      IsSnapshot zstd engine.backend tokens data) ∧
    ∀ pair ∈ used.sessions, sessionCacheKey engine.modelTag pair.1 pair.2 = key →
      IsSnapshot zstd engine.backend pair.2 data

/-- The cache of the engine, if it has one: opened under its tag, on a trusted directory. -/
def OpenedWith (zstd : Zstd) (used : SnapshotsInUse) (cache : Option OpenCache) : Prop :=
  ∀ c, cache = some c → c.platform.WorksWith zstd ∧ c.cache.modelTag = engine.modelTag ∧
    c.manager.store.Sound (engine.Trusted zstd used)

end ClassicEngine

/-- The keys of the sessions and those of the prefix cache begin differently. -/
theorem makeKey_ne_keyOf (modelTag modelTag' : Bytes) (tokens tokens' : List TokenId) :
    makeKey modelTag tokens ≠ keyOf modelTag' tokens' := by
  intro heq
  have hhead := congrArg List.head? heq
  unfold makeKey keyOf hashedKey at hhead
  exact absurd (by simpa [ascii] using hhead : chr 'k' = chr 'p') (by decide)

section Trust

variable {engine : ClassicEngine K} {zstd : Zstd} {used : SnapshotsInUse}
  (hapart : KeysApart engine.modelTag used)
include hapart

theorem trusted_prefix_iff {tokens : List TokenId} (hused : tokens ∈ used.prefixes)
    (entry : Bytes) : engine.Trusted zstd used (keyOf engine.modelTag tokens) entry ↔
      IsSnapshot zstd engine.backend tokens entry := by
  refine ⟨fun htrusted => htrusted.1 tokens hused rfl, fun hentry => ⟨?_, ?_⟩⟩
  · intro other hother hkey
    obtain rfl := hapart.prefixes hother hused hkey
    exact hentry
  · intro pair _ hkey
    exact (makeKey_ne_keyOf _ _ _ _ hkey).elim

theorem trusted_session_iff {id : Bytes} {tokens : List TokenId}
    (hused : (id, tokens) ∈ used.sessions) (entry : Bytes) :
    engine.Trusted zstd used (sessionCacheKey engine.modelTag id tokens) entry ↔
      IsSnapshot zstd engine.backend tokens entry := by
  refine ⟨fun htrusted => htrusted.2 (id, tokens) hused rfl, fun hentry => ⟨?_, ?_⟩⟩
  · intro other _ hkey
    exact (makeKey_ne_keyOf _ _ _ _ hkey.symm).elim
  · intro pair hpair hkey
    obtain rfl : pair = (id, tokens) := hapart.sessions hpair hused hkey
    exact hentry

/-! ## One call -/

/-- The prompt is prefilled, whether there is a cache or not. -/
theorem prefillPrompt_opened {memory : ClassicMemory}
    (hopened : engine.OpenedWith zstd used memory.cache) {tokens : List TokenId}
    (hne : tokens ≠ []) (hlength : tokens.length ≤ 2 ^ 31)
    (hused : ∀ n, tokens.dropLast.take n ∈ used.prefixes) :
    ∃ kv cache, prefillPrompt engine.backend memory tokens =
        (.ok (engine.backend.logits tokens), { memory with kv, cache }) ∧
      kv.Holds tokens ∧ engine.OpenedWith zstd used cache := by
  cases hcache : memory.cache with
  | none =>
      obtain ⟨hprefill, hholds⟩ := prefillPrompt_plain engine.backend hcache hne hlength
      refine ⟨_, none, ?_, hholds, fun c hc => nomatch hc⟩
      rw [hprefill, ← hcache]
  | some c =>
      obtain ⟨hplatform, htag, hsound⟩ := hopened c hcache
      have hgood : ∀ n entry, engine.Trusted zstd used (c.cache.keyFor tokens.dropLast n) entry ↔
          IsSnapshot zstd engine.backend (tokens.dropLast.take n) entry := by
        intro n entry
        rw [PrefixCache.keyFor, htag]
        exact trusted_prefix_iff hapart (hused n) entry
      obtain ⟨kv, manager, hprefill, hholds, hstore⟩ := prefillPrompt_of_good hcache hplatform hsound
        hne hlength hgood
      refine ⟨kv, some { c with manager }, hprefill, hholds, ?_⟩
      intro c' hc'
      obtain rfl := Option.some.inj hc'
      exact ⟨hplatform, htag, hstore⟩

/-- A generation leaves the cache trusted.  What it makes of `context_tokens` does not depend on
the caches. -/
theorem classicStream_opened {memory : ClassicMemory}
    (hopened : engine.OpenedWith zstd used memory.cache) {prompt : Bytes}
    (hused : ∀ n, (engine.backend.tokenize prompt true).dropLast.take n ∈ used.prefixes)
    (gen : GenerationConfig K) (callback : TextCallback) :
    let after := (classicStream engine.lib engine.backend memory prompt gen callback).2
    engine.OpenedWith zstd used after.cache ∧
      after.contextTokens = (classicStream engine.lib engine.backend
        { memory with kv := ⟨[], 0, 0⟩, cache := none } prompt gen callback).2.contextTokens ∧
      (memory.contextTokens.length ≤ engine.backend.contextLength + 1 →
        after.contextTokens.length ≤ engine.backend.contextLength + 1) := by
  unfold classicStream
  split
  · exact ⟨hopened, rfl, id⟩
  · rename_i tokens echoed hopen
    obtain ⟨rfl, hne, hfits⟩ := openRequest_inr hopen
    have hlength := hfits.trans engine.backend.contextLength_le
    let tokens := engine.backend.tokenize prompt true
    obtain ⟨kv, cache, hprefill, hholds, hopened'⟩ := prefillPrompt_opened hapart hopened hne
      hlength hused
    let uncached : ClassicMemory := { memory with kv := ⟨[], 0, 0⟩, cache := none }
    have huncached : uncached.cache = none := rfl
    obtain ⟨hplain, hholds'⟩ := prefillPrompt_plain engine.backend huncached hne hlength
    let start : ClassicState K :=
      ⟨tokens, engine.backend.logits tokens, kv, Sampler.new engine.lib gen, echoed⟩
    obtain ⟨hreply, htokens⟩ := classicLoop_agrees engine.lib engine.backend callback
      gen.maxTokens.toNat start (engine.backend.decode ⟨[], 0, 0⟩ tokens).2 hlength hholds hholds'
    have hbound := (classicLoop_kv engine.lib engine.backend callback gen.maxTokens.toNat start
      hfits hholds).1
    unfold classicGenerate
    rw [hprefill, hplain]
    refine ⟨hopened', ?_, fun hcontext => ?_⟩
    · show (if _ then _ else _) = (if _ then _ else _)
      rw [hreply, htokens]
    · show (if _ then _ else _ : List TokenId).length ≤ _
      split
      · exact hbound
      · exact hcontext

/-- `warm` leaves the cache trusted and `context_tokens` alone. -/
theorem warm_opened {memory : ClassicMemory}
    (hopened : engine.OpenedWith zstd used memory.cache) {prompt : Bytes}
    (hused : ∀ n, (engine.backend.tokenize prompt true).take n ∈ used.prefixes) :
    let after := (warm engine.backend memory prompt).2
    engine.OpenedWith zstd used after.cache ∧ after.contextTokens = memory.contextTokens := by
  let tokens := engine.backend.tokenize prompt true
  cases hcheck : checkPrompt engine.backend.contextLength tokens with
  | some fault =>
      unfold warm
      dsimp only
      rw [hcheck]
      exact ⟨hopened, rfl⟩
  | none =>
      cases hcache : memory.cache with
      | none =>
          unfold warm
          dsimp only
          rw [hcheck, hcache]
          exact ⟨hopened, rfl⟩
      | some c =>
          obtain ⟨hplatform, htag, hsound⟩ := hopened c hcache
          have hlength : tokens.length ≤ 2 ^ 31 :=
            (of_checkPrompt hcheck).2.trans engine.backend.contextLength_le
          have hgood : ∀ n entry, engine.Trusted zstd used (c.cache.keyFor tokens n) entry ↔
              IsSnapshot zstd engine.backend (tokens.take n) entry := by
            intro n entry
            rw [PrefixCache.keyFor, htag]
            exact trusted_prefix_iff hapart (hused n) entry
          obtain ⟨restored, manager, kv, hprefill, -, hstore, -⟩ := PrefixCache.prefill_of_good
            hplatform hlength hgood c.manager memory.kv hsound
          rw [warm_cached hcache hcheck hprefill]
          refine ⟨fun c' hc' => ?_, rfl⟩
          obtain rfl := Option.some.inj hc'
          exact ⟨hplatform, htag, hstore⟩

omit [Field K] [LinearOrder K] hapart in
/-- The other calls on a session that is not there. -/
theorem saveSession_unknown (modelTag : Bytes) (backend : StatefulBackend K)
    {memory : EngineMemory} {id : Bytes} (hunknown : memory.sessions.lookup id = none) :
    saveSession modelTag backend memory id = (.error (unknownSession id), memory) := by
  rw [saveSession, hunknown]

/-- `save_session` sets the session and stores a snapshot, of `context_tokens` if the KV cache has
their cells. -/
theorem saveSession_opened {memory : EngineMemory}
    (hopened : engine.OpenedWith zstd used memory.cache)
    (hlength : memory.contextTokens.length < 2 ^ 32) {id : Bytes}
    (hknown : (memory.sessions.lookup id).isSome)
    (hfaithful : ClassicEngine.Faithful memory (.saveSession id : ClassicCall K))
    (hused : (id, memory.contextTokens) ∈ used.sessions) :
    ∃ cache, engine.OpenedWith zstd used cache ∧
      saveSession engine.modelTag engine.backend memory id =
        (.ok (), { memory with
          cache
          sessions := memory.sessions.map fun item =>
            if item.1 = id then (id, memory.contextTokens) else item }) := by
  obtain ⟨old, hlookup⟩ := Option.isSome_iff_exists.mp hknown
  obtain ⟨⟨kv, cache, tokens⟩, sessions, next⟩ := memory
  dsimp only at hlookup hlength hused
  cases cache with
  | none =>
      refine ⟨none, hopened, ?_⟩
      rw [saveSession, hlookup]
  | some c =>
      obtain ⟨hplatform, htag, hsound⟩ := hopened c rfl
      by_cases hempty : tokens = []
      · refine ⟨some c, hopened, ?_⟩
        rw [saveSession, hlookup]
        dsimp only
        rw [if_neg (not_not.mpr hempty)]
      · have hcells : kv.cells = tokens.zipIdx := (hfaithful hknown rfl).resolve_left hempty
        let key := sessionCacheKey engine.modelTag id tokens
        have hkey : key.length < 2 ^ 32 :=
          (length_madeKey ⟨_, _, hlength.trans (by norm_num), .inl rfl⟩).trans_lt (by norm_num)
        have hstored := (CacheManager.storeState_sound engine.backend hplatform hsound hkey hcells
          fun entry => (trusted_session_iff hapart hused entry).mpr).1
        refine ⟨some { c with manager :=
          (c.manager.storeState c.platform engine.backend key kv tokens.length).2 }, ?_, ?_⟩
        · intro c' hc'
          obtain rfl := Option.some.inj hc'
          exact ⟨hplatform, htag, hstored⟩
        · rw [saveSession, hlookup]
          dsimp only
          rw [if_pos hempty, Nat.mod_eq_of_lt hlength]

/-- The attempt to restore a snapshot: if it succeeds, the KV cache holds the tokens. -/
theorem restoreSession_opened {memory : ClassicMemory}
    (hopened : engine.OpenedWith zstd used memory.cache) {id : Bytes} {tokens : List TokenId}
    (hlength : tokens.length < 2 ^ 32) (hused : (id, tokens) ∈ used.sessions) :
    ∃ restored kv cache, restoreSession engine.modelTag engine.backend memory id tokens =
        (restored, { memory with kv, cache }) ∧ engine.OpenedWith zstd used cache ∧
      (restored = true → kv.Holds tokens) := by
  obtain ⟨kv, cache, context⟩ := memory
  cases cache with
  | none => exact ⟨false, kv, none, rfl, hopened, nofun⟩
  | some c =>
      obtain ⟨hplatform, htag, hsound⟩ := hopened c rfl
      let loaded := c.manager.loadState c.platform engine.backend
        (sessionCacheKey engine.modelTag id tokens) kv
      obtain ⟨hstore, hload⟩ := CacheManager.loadState_spec engine.backend hplatform hsound
        (sessionCacheKey engine.modelTag id tokens) hlength
        (fun entry => (trusted_session_iff hapart hused entry).mp) kv
      refine ⟨loaded.1, loaded.2.2, some { c with manager := loaded.2.1 }, rfl, ?_, ?_⟩
      · intro c' hc'
        obtain rfl := Option.some.inj hc'
        exact ⟨hplatform, htag, hstore⟩
      · intro hrestored
        rcases hload with ⟨-, hholds, -⟩ | ⟨hfailed, -⟩
        · exact hholds
        · rw [show loaded.1 = false from hfailed] at hrestored
          cases hrestored

/-- `load_session` restores the session: from its snapshot, or by decoding it again. -/
theorem loadSession_opened {memory : EngineMemory}
    (hopened : engine.OpenedWith zstd used memory.cache) {id : Bytes} {tokens : List TokenId}
    (hlookup : memory.sessions.lookup id = some tokens) (hlength : tokens.length < 2 ^ 32)
    (hused : tokens = [] ∨ (id, tokens) ∈ used.sessions)
    (hfaithful : ClassicEngine.Faithful memory (.loadSession id : ClassicCall K)) :
    ∃ kv cache, loadSession engine.modelTag engine.backend memory id =
        (.ok (), { memory with kv, cache, contextTokens := tokens }) ∧
      kv.Holds tokens ∧ engine.OpenedWith zstd used cache := by
  by_cases hempty : tokens = []
  · -- Without tokens the backend is left alone.
    subst hempty
    refine ⟨memory.kv, memory.cache, ?_, hfaithful hlookup, hopened⟩
    rw [loadSession, hlookup]
    dsimp only
    rw [if_pos rfl]
  · obtain ⟨restored, kv, cache, hrestore, hopened', hholds⟩ := restoreSession_opened hapart hopened
      hlength (hused.resolve_left hempty)
    cases restored with
    | true =>
        refine ⟨kv, cache, ?_, hholds rfl, hopened'⟩
        rw [loadSession, hlookup]
        dsimp only
        rw [if_neg hempty, hrestore]
    | false =>
        obtain ⟨hlogits, hdecoded⟩ := engine.backend.decode_holds kv hempty hlength
        refine ⟨(engine.backend.decode kv tokens).2, cache, ?_, hdecoded, hopened'⟩
        rw [loadSession, hlookup]
        dsimp only
        rw [if_neg hempty, hrestore]
        dsimp only
        rw [show engine.backend.decode kv tokens =
          (.ok (engine.backend.logits tokens), (engine.backend.decode kv tokens).2) from
            Prod.ext hlogits rfl]

omit [Field K] [LinearOrder K] hapart in
/-- An assignment to an entry that is there. -/
theorem lookup_assign {β : Type*} (items : List (Bytes × β)) (id other : Bytes) (value : β) :
    (items.map fun item => if item.1 = id then (id, value) else item).lookup other =
      if other = id then (items.lookup id).map fun _ => value else items.lookup other := by
  induction items with
  | nil =>
      rw [List.map_nil, List.lookup_nil, List.lookup_nil]
      exact (ite_self none).symm
  | cons item rest ih =>
      obtain ⟨key, old⟩ := item
      rw [List.map_cons]
      by_cases hkey : key = id
      · subst hkey
        rw [if_pos rfl, List.lookup_cons_self]
        by_cases hother : other = key
        · rw [if_pos hother, hother, List.lookup_cons_self]
          rfl
        · rw [List.lookup_cons, List.lookup_cons, ih, if_neg hother, if_neg hother,
            beq_false_of_ne hother]
      · rw [if_neg hkey, List.lookup_cons, ih, List.lookup_cons, List.lookup_cons]
        by_cases hother : other = key
        · subst hother
          rw [if_neg hkey, if_neg hkey, beq_self_eq_true]
        · rw [beq_false_of_ne hother, beq_false_of_ne (Ne.symm hkey)]

omit [Field K] [LinearOrder K] hapart in
/-- A new session has no tokens, and the others stay as they are. -/
theorem lookup_createSession (memory : EngineMemory) (id : Bytes) :
    (createSession memory).2.sessions.lookup id =
      (memory.sessions.lookup id).or (if id = (createSession memory).1 then some [] else none) := by
  unfold createSession
  dsimp only
  split
  · rename_i hknown
    by_cases hid : id = ascii "sess-" ++ Wire.decimal memory.nextSessionId
    · subst hid
      obtain ⟨tokens, hlookup⟩ := Option.isSome_iff_exists.mp hknown
      rw [hlookup, Option.some_or]
    · rw [if_neg hid, Option.or_none]
  · rename_i hunknown
    by_cases hid : id = ascii "sess-" ++ Wire.decimal memory.nextSessionId
    · subst hid
      rw [List.lookup_cons_self, Option.not_isSome_iff_eq_none.mp hunknown, if_pos rfl,
        Option.none_or]
    · rw [List.lookup_cons, beq_false_of_ne hid, if_neg hid, Option.or_none]

/-! ## All calls -/

variable (engine zstd used) in
/-- What holds between the calls. -/
structure Consistent (state : EngineMemory × ClassicEngine.SavedTokens) : Prop where
  opened : engine.OpenedWith zstd used state.1.cache
  context : state.1.contextTokens.length ≤ engine.backend.contextLength + 1
  sessions : ∀ id tokens, state.1.sessions.lookup id = some tokens →
    tokens.length ≤ engine.backend.contextLength + 1 ∧
      (tokens = [] ∨ (id, tokens) ∈ used.sessions)
  saved : ∀ id tokens, state.2 id = some tokens → state.1.sessions.lookup id = some tokens

omit hapart in
theorem Consistent.initial {cache : Option OpenCache}
    (hopened : engine.OpenedWith zstd used cache) (kv : KvState) :
    Consistent engine zstd used (EngineMemory.initial kv cache, fun _ => none) where
  opened := hopened
  context := Nat.zero_le _
  sessions := nofun
  saved := nofun

omit [Field K] [LinearOrder K] hapart in
theorem lt_of_context_le (backend : StatefulBackend K) {n : ℕ}
    (hn : n ≤ backend.contextLength + 1) : n < 2 ^ 32 := by
  have hcontext := backend.contextLength_le
  omega

omit hapart in
/-- A session is created. -/
theorem Consistent.createSession {memory : EngineMemory} {saved : ClassicEngine.SavedTokens}
    (hstate : Consistent engine zstd used (memory, saved)) :
    Consistent engine zstd used ((createSession memory).2, saved) where
  opened := hstate.opened
  context := hstate.context
  sessions := by
    intro id tokens hlookup
    rw [lookup_createSession, Option.or_eq_some_iff] at hlookup
    rcases hlookup with hlookup | ⟨-, hlookup⟩
    · exact hstate.sessions id tokens hlookup
    · split at hlookup <;> cases hlookup
      exact ⟨Nat.zero_le _, .inl rfl⟩
  saved := by
    intro id tokens hsaved
    rw [lookup_createSession, hstate.saved id tokens hsaved, Option.some_or]

omit hapart in
/-- A session that is there is set to `context_tokens`. -/
theorem Consistent.assign {memory : EngineMemory} {saved : ClassicEngine.SavedTokens}
    (hstate : Consistent engine zstd used (memory, saved)) {cache : Option OpenCache}
    (hopened : engine.OpenedWith zstd used cache) {id : Bytes}
    (hknown : (memory.sessions.lookup id).isSome)
    (hused : (id, memory.contextTokens) ∈ used.sessions) :
    Consistent engine zstd used
      ({ memory with
          cache
          sessions := memory.sessions.map fun item =>
            if item.1 = id then (id, memory.contextTokens) else item },
        Function.update saved id (some memory.contextTokens)) where
  opened := hopened
  context := hstate.context
  sessions := by
    intro other tokens hlookup
    rw [lookup_assign] at hlookup
    split at hlookup
    · rename_i hother
      subst hother
      obtain ⟨old, -, rfl⟩ := Option.map_eq_some_iff.mp hlookup
      exact ⟨hstate.context, .inr hused⟩
    · exact hstate.sessions other tokens hlookup
  saved := by
    intro other tokens hsaved
    dsimp only at hsaved
    obtain ⟨old, hlookup⟩ := Option.isSome_iff_exists.mp hknown
    rw [lookup_assign]
    by_cases hother : other = id
    · subst hother
      rw [Function.update_self] at hsaved
      rw [if_pos rfl, hlookup]
      exact hsaved
    · rw [Function.update_of_ne hother] at hsaved
      rw [if_neg hother]
      exact hstate.saved other tokens hsaved

omit hapart in
/-- Less is known of what was saved. -/
theorem Consistent.forget {memory : EngineMemory} {saved : ClassicEngine.SavedTokens}
    (hstate : Consistent engine zstd used (memory, saved)) (id : Bytes) :
    Consistent engine zstd used (memory, Function.update saved id none) where
  opened := hstate.opened
  context := hstate.context
  sessions := hstate.sessions
  saved := by
    intro other tokens hsaved
    dsimp only at hsaved
    by_cases hother : other = id
    · rw [hother, Function.update_self] at hsaved
      cases hsaved
    · rw [Function.update_of_ne hother] at hsaved
      exact hstate.saved other tokens hsaved

omit hapart in
/-- A session is deleted. -/
theorem Consistent.delete {memory : EngineMemory} {saved : ClassicEngine.SavedTokens}
    (hstate : Consistent engine zstd used (memory, saved)) (id : Bytes) :
    Consistent engine zstd used
      ({ memory with sessions := memory.sessions.filter (·.1 ≠ id) },
        Function.update saved id none) where
  opened := hstate.opened
  context := hstate.context
  sessions := by
    intro other tokens hlookup
    by_cases hother : other = id
    · rw [hother, lookup_filter_self] at hlookup
      cases hlookup
    · rw [lookup_filter_ne hother] at hlookup
      exact hstate.sessions other tokens hlookup
  saved := by
    intro other tokens hsaved
    dsimp only at hsaved
    by_cases hother : other = id
    · rw [hother, Function.update_self] at hsaved
      cases hsaved
    · rw [Function.update_of_ne hother] at hsaved
      rw [lookup_filter_ne hother]
      exact hstate.saved other tokens hsaved

/-- Every call keeps the engine consistent. -/
theorem Consistent.apply {state : EngineMemory × ClassicEngine.SavedTokens}
    (hstate : Consistent engine zstd used state) {call : ClassicCall K}
    (hfaithful : ClassicEngine.Faithful state.1 call) (hcovers : engine.Covers used state.1 call) :
    Consistent engine zstd used (engine.applyRecording state call) := by
  obtain ⟨memory, saved⟩ := state
  unfold ClassicEngine.applyRecording
  cases call with
  | generate prompt gen callback =>
      obtain ⟨hopened, -, hlength⟩ := classicStream_opened hapart hstate.opened hcovers gen callback
      exact ⟨hopened, hlength hstate.context, hstate.sessions, hstate.saved⟩
  | warm prompt =>
      obtain ⟨hopened, hcontext⟩ := warm_opened hapart hstate.opened hcovers
      refine ⟨hopened, ?_, hstate.sessions, hstate.saved⟩
      exact (congrArg List.length hcontext).trans_le hstate.context
  | createSession => exact hstate.createSession
  | saveSession id =>
      unfold ClassicEngine.apply ClassicEngine.record
      dsimp only
      by_cases hknown : (memory.sessions.lookup id).isSome
      · obtain ⟨cache, hopened, hsave⟩ := saveSession_opened hapart hstate.opened
          (lt_of_context_le engine.backend hstate.context) hknown hfaithful hcovers
        rw [hsave, if_pos hknown]
        exact hstate.assign hopened hknown hcovers
      · rw [saveSession_unknown _ _ (Option.not_isSome_iff_eq_none.mp hknown), if_neg hknown]
        exact hstate
  | loadSession id =>
      unfold ClassicEngine.apply ClassicEngine.record
      dsimp only
      cases hlookup : memory.sessions.lookup id with
      | none =>
          rw [loadSession, hlookup]
          exact hstate
      | some tokens =>
          obtain ⟨hlength, hused⟩ := hstate.sessions id tokens hlookup
          obtain ⟨kv, cache, hload, -, hopened⟩ := loadSession_opened hapart hstate.opened hlookup
            (lt_of_context_le engine.backend hlength) hused hfaithful
          rw [hload]
          exact ⟨hopened, hlength, hstate.sessions, hstate.saved⟩
  | deleteSession id =>
      unfold ClassicEngine.apply ClassicEngine.record
      dsimp only
      cases hlookup : memory.sessions.lookup id with
      | none =>
          rw [deleteSession, hlookup]
          exact hstate.forget id
      | some tokens =>
          rw [deleteSession, hlookup]
          exact hstate.delete id

omit [Field K] [LinearOrder K] hapart in
/-- Two engines that differ in their KV cache and their disk cache only, with the same sessions
saved. -/
structure Alike (state state' : EngineMemory × ClassicEngine.SavedTokens) : Prop where
  context : state.1.contextTokens = state'.1.contextTokens
  sessions : state.1.sessions = state'.1.sessions
  nextSessionId : state.1.nextSessionId = state'.1.nextSessionId
  saved : state.2 = state'.2

/-- Every call keeps two consistent engines alike. -/
theorem Alike.apply {state state' : EngineMemory × ClassicEngine.SavedTokens}
    (halike : Alike state state') (hstate : Consistent engine zstd used state)
    (hstate' : Consistent engine zstd used state') {call : ClassicCall K}
    (hfaithful : ClassicEngine.Faithful state.1 call)
    (hfaithful' : ClassicEngine.Faithful state'.1 call)
    (hcovers : engine.Covers used state.1 call) (hcovers' : engine.Covers used state'.1 call) :
    Alike (engine.applyRecording state call) (engine.applyRecording state' call) := by
  obtain ⟨⟨⟨kv, cache, context⟩, sessions, next⟩, saved⟩ := state
  obtain ⟨⟨⟨kv', cache', context'⟩, sessions', next'⟩, saved'⟩ := state'
  obtain ⟨rfl, rfl, rfl, rfl⟩ : context = context' ∧ sessions = sessions' ∧ next = next' ∧
    saved = saved' := ⟨halike.context, halike.sessions, halike.nextSessionId, halike.saved⟩
  unfold ClassicEngine.applyRecording
  cases call with
  | generate prompt gen callback =>
      obtain ⟨-, hcontext, -⟩ := classicStream_opened hapart hstate.opened hcovers gen callback
      obtain ⟨-, hcontext', -⟩ := classicStream_opened hapart hstate'.opened hcovers' gen callback
      exact ⟨hcontext.trans hcontext'.symm, rfl, rfl, rfl⟩
  | warm prompt =>
      obtain ⟨-, hcontext⟩ := warm_opened hapart hstate.opened hcovers
      obtain ⟨-, hcontext'⟩ := warm_opened hapart hstate'.opened hcovers'
      exact ⟨hcontext.trans hcontext'.symm, rfl, rfl, rfl⟩
  | createSession => exact ⟨rfl, rfl, rfl, rfl⟩
  | saveSession id =>
      unfold ClassicEngine.apply ClassicEngine.record
      dsimp only
      by_cases hknown : (sessions.lookup id).isSome
      · obtain ⟨cache, -, hsave⟩ := saveSession_opened hapart hstate.opened
          (lt_of_context_le engine.backend hstate.context) hknown hfaithful hcovers
        obtain ⟨cache', -, hsave'⟩ := saveSession_opened hapart hstate'.opened
          (lt_of_context_le engine.backend hstate'.context) hknown hfaithful' hcovers'
        rw [hsave, hsave']
        exact ⟨rfl, rfl, rfl, rfl⟩
      · have hunknown := Option.not_isSome_iff_eq_none.mp hknown
        rw [saveSession_unknown _ _ hunknown, saveSession_unknown _ _ hunknown]
        exact ⟨rfl, rfl, rfl, rfl⟩
  | loadSession id =>
      unfold ClassicEngine.apply ClassicEngine.record
      dsimp only
      cases hlookup : sessions.lookup id with
      | none =>
          rw [loadSession, loadSession, hlookup]
          exact ⟨rfl, rfl, rfl, rfl⟩
      | some tokens =>
          obtain ⟨hlength, hused⟩ := hstate.sessions id tokens hlookup
          obtain ⟨kv, cache, hload, -⟩ := loadSession_opened hapart hstate.opened hlookup
            (lt_of_context_le engine.backend hlength) hused hfaithful
          obtain ⟨kv', cache', hload', -⟩ := loadSession_opened hapart hstate'.opened hlookup
            (lt_of_context_le engine.backend hlength) hused hfaithful'
          rw [hload, hload']
          exact ⟨rfl, rfl, rfl, rfl⟩
  | deleteSession id =>
      unfold ClassicEngine.apply ClassicEngine.record
      dsimp only
      rw [deleteSession, deleteSession]
      cases sessions.lookup id <;> exact ⟨rfl, rfl, rfl, rfl⟩

omit hapart in
/-- What is in use for the one engine is in use for the other. -/
theorem Alike.covers {state state' : EngineMemory × ClassicEngine.SavedTokens}
    (halike : Alike state state') {call : ClassicCall K}
    (hcovers : engine.Covers used state.1 call) : engine.Covers used state'.1 call := by
  cases call with
  | saveSession id =>
      show (id, state'.1.contextTokens) ∈ used.sessions
      rw [← halike.context]
      exact hcovers
  | generate | warm | createSession | loadSession | deleteSession => exact hcovers

end Trust

/-! ## Sessions restore what was saved -/

/-- A run whose steps are faithful, with a cache on a directory that can be trusted and without
one: what was saved last under a session is the same in both, and a load of the session succeeds
in both and leaves exactly these tokens in the KV cache and in `context_tokens`. -/
theorem sessions_restored (engine : ClassicEngine K) (zstd : Zstd) (used : SnapshotsInUse)
    (process : Process) (disk : Disk) (kv kv' : KvState) (calls : List (ClassicCall K))
    (id : Bytes) (tokens : List TokenId) :
    let cached := (EngineMemory.initial kv (some (process.launch disk)), fun _ => none)
    let plain := (EngineMemory.initial kv' none, fun _ => none)
    let after := Runs.run engine.applyRecording cached calls
    let after' := Runs.run engine.applyRecording plain calls
    KeysApart engine.modelTag used → process.platform.WorksWith zstd →
      process.cache.modelTag = engine.modelTag → disk.Sound (engine.Trusted zstd used) →
      Runs.Throughout engine.applyRecording
        (fun state call => ClassicEngine.Faithful state.1 call ∧ engine.Covers used state.1 call)
        cached (calls ++ [.loadSession id]) →
      Runs.Throughout engine.applyRecording (fun state call => ClassicEngine.Faithful state.1 call)
        plain (calls ++ [.loadSession id]) →
      after.2 id = after'.2 id ∧
        (after.2 id = some tokens →
          ∀ memory ∈ [after.1, after'.1], ∃ loaded,
            loadSession engine.modelTag engine.backend memory id = (.ok (), loaded) ∧
              loaded.kv.Holds tokens ∧ loaded.contextTokens = tokens) := by
  intro cached plain after after' hapart hplatform htag hdisk hcached hplain
  have hopened : engine.OpenedWith zstd used (some (process.launch disk)) := by
    intro c hc
    obtain rfl := Option.some.inj hc
    exact ⟨hplatform, htag, DiskStore.sound_reopen _ _ hdisk⟩
  have hclosed : engine.OpenedWith zstd used none := fun c hc => nomatch hc
  obtain ⟨hcached, hload, -⟩ := Runs.throughout_append.mp hcached
  obtain ⟨hplain, hload', -⟩ := Runs.throughout_append.mp hplain
  -- The two engines go side by side, each consistent, and alike.
  have hrun : Consistent engine zstd used after ∧ Consistent engine zstd used after' ∧
      Alike after after' := by
    refine Runs.Throughout.relation (fun state state' =>
      Consistent engine zstd used state ∧ Consistent engine zstd used state' ∧ Alike state state')
      ?_ ⟨.initial hopened kv, .initial hclosed kv', ⟨rfl, rfl, rfl, rfl⟩⟩ hcached hplain
    intro state state' call hrel hallowed hpermitted
    obtain ⟨hstate, hstate', halike⟩ := hrel
    have hcovers' := halike.covers hallowed.2
    exact ⟨hstate.apply hapart hallowed.1 hallowed.2, hstate'.apply hapart hpermitted hcovers',
      halike.apply hapart hstate hstate' hallowed.1 hpermitted hallowed.2 hcovers'⟩
  obtain ⟨hafter, hafter', halike⟩ := hrun
  refine ⟨congrFun halike.saved id, fun hsaved memory hmemory => ?_⟩
  obtain ⟨state, hstate, rfl, hfaithful, hsaved'⟩ : ∃ state, Consistent engine zstd used state ∧
      memory = state.1 ∧
      ClassicEngine.Faithful state.1 (.loadSession id : ClassicCall K) ∧ state.2 id = some tokens := by
    rcases List.mem_pair.mp hmemory with rfl | rfl
    · exact ⟨after, hafter, rfl, hload.1, hsaved⟩
    · exact ⟨after', hafter', rfl, hload', congrFun halike.saved id ▸ hsaved⟩
  have hlookup := hstate.saved id tokens hsaved'
  obtain ⟨hlength, hused⟩ := hstate.sessions id tokens hlookup
  obtain ⟨kv, cache, hloaded, hholds, -⟩ := loadSession_opened hapart hstate.opened hlookup
    (lt_of_context_le engine.backend hlength) hused hfaithful
  exact ⟨_, hloaded, hholds, rfl⟩

/-! ## A save that is not faithful -/

omit [Field K] [LinearOrder K] in
/-- Where nothing fails, a load right after a save with a cache restores `context_tokens` exactly
if the save was faithful. -/
theorem load_of_save_iff (modelTag : Bytes) {backend : StatefulBackend K}
    (hrestores : ∀ i, backend.restoreFails i = false) {memory : EngineMemory} {c : OpenCache}
    (hcache : memory.cache = some c) (hnamed : c.manager.store.disk.Named)
    (hunlimited : c.manager.store.maxBytes = 0)
    (hread : ∀ access, c.platform.fs.readFails access = false)
    (hwrite : ∀ access, c.platform.fs.writeFails access = false) {id : Bytes}
    (hknown : (memory.sessions.lookup id).isSome) (hne : memory.contextTokens ≠ [])
    (hlength : memory.contextTokens.length < 2 ^ 32) :
    (loadSession modelTag backend (saveSession modelTag backend memory id).2 id).2.kv.Holds
        memory.contextTokens ↔ ClassicEngine.Faithful memory (.saveSession id : ClassicCall K) := by
  obtain ⟨⟨kv, cache, tokens⟩, sessions, next⟩ := memory
  dsimp only at hcache hknown hne hlength
  subst hcache
  obtain ⟨old, hlookup⟩ := Option.isSome_iff_exists.mp hknown
  let key := sessionCacheKey modelTag id tokens
  let stored := c.manager.storeState c.platform backend key kv tokens.length
  have hkey : key.length < 2 ^ 32 :=
    (length_madeKey ⟨_, _, hlength.trans (by norm_num), .inl rfl⟩).trans_lt (by norm_num)
  have hsave : (saveSession modelTag backend ⟨⟨kv, some c, tokens⟩, sessions, next⟩ id).2 =
      ⟨⟨kv, some { c with manager := stored.2 }, tokens⟩,
        sessions.map fun item => if item.1 = id then (id, tokens) else item, next⟩ := by
    rw [saveSession, hlookup]
    dsimp only
    rw [if_pos hne, Nat.mod_eq_of_lt hlength]
  -- The blob of the cells is in the store, and a load hands it back.
  obtain ⟨-, hstore⟩ := CacheManager.storeState_put c.platform backend c.manager key kv
    tokens.length
  have hin : stored.2.store.InStore key (envelope
      (pack c.platform.zstd c.manager.compressed (backend.stateData kv.cells)) tokens.length) := by
    rw [hstore]
    exact DiskStore.inStore_of_put hnamed hkey
      (DiskStore.put_ok hwrite fun hlarge => hlarge.1 hunlimited)
      (FileSystem.left_of_succeeds (hwrite _))
  have hhanded := CacheManager.handed_of_envelope (m := stored.2) hlength (hin.get hread hkey)
  obtain ⟨hok, hkv⟩ := (CacheManager.loadState_handed c.platform backend stored.2 key kv).2 _ _
    hhanded
  have hloaded := hok.mpr (setState_ok hrestores _ _ _)
  have hafter : (loadSession modelTag backend
      (saveSession modelTag backend ⟨⟨kv, some c, tokens⟩, sessions, next⟩ id).2 id).2.kv =
        ⟨kv.cells, tokens.length, kv.restores + 1⟩ := by
    rw [hsave, loadSession, lookup_assign, if_pos rfl, hlookup, Option.map_some]
    dsimp only
    rw [if_neg hne]
    unfold restoreSession
    dsimp only
    rw [show stored.2.loadState c.platform backend key kv = (true, (stored.2.loadState c.platform
      backend key kv).2.1, (stored.2.loadState c.platform backend key kv).2.2) from
        Prod.ext hloaded rfl]
    dsimp only
    rw [hkv, StatefulBackend.setState, hrestores, if_neg Bool.false_ne_true,
      backend.parseState_stateData]
  rw [hafter]
  constructor
  · intro hholds _ _
    exact .inr hholds.1
  · intro hfaithful
    exact ⟨(hfaithful hknown rfl).resolve_left hne, rfl⟩

/-! ## A generation before the save -/

/-- A model that takes every prompt for one token and would repeat it forever. -/
def repeatingBackend : StatefulBackend ℚ :=
  { blobBackend with
    tokenize := fun _ _ => [0]
    vocabSize_pos := blobBackend_vocabSize_pos
    length_logits := blobBackend_length_logits }

/-- A generation with a budget of one token, then a new session that is saved. -/
def saveAfter (callback : TextCallback) : List (ClassicCall ℚ) :=
  [.generate [] { GenerationConfig.initial with maxTokens := 1, temperature := 0 } callback,
    .createSession, .saveSession (ascii "sess-1")]

/-- The caller stops the generation: the token is not pushed, and the session is restored. -/
theorem sessions_restored_stopped :
    let engine : ClassicEngine ℚ := ⟨.rational, [], repeatingBackend⟩
    let cached : EngineMemory × ClassicEngine.SavedTokens := (EngineMemory.initial ⟨[], 0, 0⟩
      (some ((exampleProcess 256 (by decide)).launch ⟨[], 0⟩)), fun _ => none)
    let after := Runs.run engine.applyRecording cached (saveAfter fun _ => .stop)
    ∃ loaded, loadSession [] repeatingBackend after.1 (ascii "sess-1") = (.ok (), loaded) ∧
      loaded.kv.Holds [0] := by
  intro engine cached after
  let used : SnapshotsInUse := ⟨{[]}, {(ascii "sess-1", [0])}⟩
  have hused : ∀ n, (engine.backend.tokenize [] true).dropLast.take n ∈ used.prefixes :=
    fun n => List.take_nil
  obtain ⟨-, hrestored⟩ := sessions_restored engine storingZstd used (exampleProcess 256 (by decide))
    ⟨[], 0⟩ ⟨[], 0, 0⟩ ⟨[], 0, 0⟩ (saveAfter fun _ => .stop) (ascii "sess-1") [0]
    ⟨Set.injOn_singleton .., Set.injOn_singleton ..⟩ ⟨.inr rfl, fun _ _ => rfl⟩ rfl
    ⟨List.nodup_nil, nofun⟩
    ⟨⟨trivial, hused⟩, ⟨trivial, trivial⟩,
      ⟨by decide +kernel, Set.mem_singleton_iff.mpr (by decide +kernel)⟩,
      ⟨by decide +kernel, trivial⟩, trivial⟩
    (by decide +kernel)
  obtain ⟨loaded, hloaded, hholds, -⟩ := hrestored (by decide +kernel) after.1
    (List.mem_cons_self ..)
  exact ⟨loaded, hloaded, hholds⟩

/-- The budget ends the generation: the last token is in `context_tokens` and not in the KV cache.
The snapshot restores one cell and says that there are two. -/
theorem snapshot_without_last_token :
    let engine : ClassicEngine ℚ := ⟨.rational, [], repeatingBackend⟩
    let cached : EngineMemory × ClassicEngine.SavedTokens := (EngineMemory.initial ⟨[], 0, 0⟩
      (some ((exampleProcess 256 (by decide)).launch ⟨[], 0⟩)), fun _ => none)
    let plain : EngineMemory × ClassicEngine.SavedTokens :=
      (EngineMemory.initial ⟨[], 0, 0⟩ none, fun _ => none)
    let after := Runs.run engine.applyRecording cached (saveAfter fun _ => .keepGoing)
    let after' := Runs.run engine.applyRecording plain (saveAfter fun _ => .keepGoing)
    let loaded := loadSession [] repeatingBackend after.1 (ascii "sess-1")
    let loaded' := loadSession [] repeatingBackend after'.1 (ascii "sess-1")
    after.2 (ascii "sess-1") = some [0, 0] ∧ after'.2 (ascii "sess-1") = some [0, 0] ∧
      loaded.1 = .ok () ∧ loaded.2.kv.cells = [(0, 0)] ∧ loaded.2.kv.nPast = 2 ∧
      loaded'.1 = .ok () ∧ loaded'.2.kv.cells = [(0, 0), (0, 1)] ∧ loaded'.2.kv.nPast = 2 ∧
      ¬ loaded.2.kv.Holds [0, 0] := by
  decide +kernel

end Reame.Engine
