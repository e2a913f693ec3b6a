import Reame.Arca.Session
import Reame.Cache.Neighbours

/-!
# Client and daemon agree on the wire

In a session without failures the calls are answered in their turn, so what they return
follows from what the store does.  Without a budget a value that has been stored is read
back (`get_after_set`), as long as no other key with its file comes in between and no write
fails unnoticed, and what has never been stored is not found (`get_never_put`).

The archive may have any past in which it had no budget and got its keys and values through
a daemon, restarts included.
-/

namespace Reame.Arca

open Interleaving

variable {fs : Cache.FileSystem} {config : Palimpsest.CorpusConfig} {store : Cache.DiskStore}

/-! ## What a `get` returns -/

/-- Operations as they come through a daemon without a budget. -/
def Usual : Cache.StoreOp → Prop
  | .put key data => key.length ≤ kMaxBulkBytes ∧ data.length ≤ kMaxBulkBytes
  | .reopen maxBytes => maxBytes = 0
  | _ => True

/-- A `get` of the key, or an operation on a key with another file. -/
def Harmless (key : Bytes) : Operation → Prop
  | .get other => other = key ∨ Cache.pathFor other ≠ Cache.pathFor key
  | .set other _ => Cache.pathFor other ≠ Cache.pathFor key

/-- The keys with other files. -/
abbrev othersOf (key : Bytes) : Set Bytes := {other | Cache.pathFor other ≠ Cache.pathFor key}

theorem elsewhere_othersOf (key : Bytes) : Cache.DiskStore.Elsewhere (othersOf key) key := by
  intro other hother
  refine ⟨?_, hother⟩
  rintro rfl
  exact hother rfl

open Cache.DiskStore (Undisturbed) in
theorem undisturbed_after (hread : ∀ access, fs.readFails access = false) {key value : Bytes}
    (hkey : key.length < 2 ^ 32) (hs : Undisturbed (othersOf key) key value store)
    {ops : List Operation} (hops : ∀ op ∈ ops, Harmless key op) :
    Undisturbed (othersOf key) key value (after fs store ops) := by
  induction ops generalizing store with
  | nil => exact hs
  | cons op ops ih =>
      refine ih ?_ fun op' hop' => hops op' (List.mem_cons_of_mem _ hop')
      have hop := hops op (List.mem_cons_self ..)
      cases op with
      | get other =>
          rcases hop with rfl | hother
          · exact (hs.get_self (hread _) hkey).2
          · exact hs.get (elsewhere_othersOf key) hother
      | set other value' => exact hs.put (elsewhere_othersOf key) hop value'

/-- What has been stored is read back. -/
theorem get_after_set (hread : ∀ access, fs.readFails access = false) (hmax : store.maxBytes = 0)
    (hstore : store.Sound fun _ _ => True) {key value : Bytes} (hkey : key.length ≤ kMaxBulkBytes)
    (hput : (store.put fs key value).1 = true) (hwhole : store.WritesWhole fs key value)
    {between : List Operation} (hbetween : ∀ op ∈ between, Harmless key op) :
    ((after fs store (.set key value :: between)).get fs key).1 = some value := by
  have hshort : key.length < 2 ^ 32 := hkey.trans_lt (by decide)
  have hpaths : ∀ other ∈ othersOf key, ∀ e, store.entries.lookup other = some e →
      e.path ≠ Cache.pathFor key := by
    intro other hother e he
    have hpath : e.path = Cache.pathFor other :=
      (hstore.entries _ (Cache.mem_of_lookup he)).2.1
    rwa [hpath]
  have hstored := Cache.DiskStore.undisturbed_of_put
    (fun other hother => (elsewhere_othersOf key other hother).1) hmax hpaths hput hwhole
  exact ((undisturbed_after hread hshort hstored hbetween).get_self (hread _) hshort).1

theorem unlimited_after (hmax : store.maxBytes = 0) (ops : List Operation) :
    (after fs store ops).maxBytes = 0 := by
  refine Cache.DiskStore.unlimited_run hmax fun maxBytes hmem => ?_
  obtain ⟨op, -, hop⟩ := List.mem_map.mp hmem
  cases op <;> cases hop

/-- What has never been stored is not found. -/
theorem get_never_put {ops : List Cache.StoreOp} (hops : ∀ op ∈ ops, Usual op) {key : Bytes}
    (hnever : ∀ data, .put key data ∉ ops) :
    (((Cache.DiskStore.reopen fs 0 {}).run fs ops).get fs key).1 = none := by
  have hothers : ((Cache.DiskStore.reopen fs 0 {}).run fs ops).disk.Labelled
      fun other _ => other ≠ key := by
    refine Cache.DiskStore.labelled_run (Cache.DiskStore.labelled_reopen_empty ..)
      fun other data hmem => ?_
    have hlength : other.length ≤ kMaxBulkBytes := (hops _ hmem).1
    refine ⟨hlength.trans_lt (by decide), fun _ _ => ?_⟩
    rintro rfl
    exact hnever data hmem
  cases hget : (((Cache.DiskStore.reopen fs 0 {}).run fs ops).get fs key).1 with
  | none => rfl
  | some data =>
      obtain ⟨-, hne, -⟩ := Cache.DiskStore.get_of_labelled hothers hget
      exact absurd rfl hne

/-! ## Agreement -/

namespace Session

variable {first : Cache.DiskStore} {s : Session}

/-- What the client can say of its calls. -/
structure Agreement (fs : Cache.FileSystem) (config : Palimpsest.CorpusConfig) (archive : Archive)
    (before : List Cache.StoreOp) (s : Session) : Prop where
  /-- Every call has read the reply to its command, and no byte more. -/
  consumed : s.returned.map Returned.consumed =
    archive.replies fs config (s.calls.map Operation.command)
  /-- Between calls the connection is as new. -/
  ready : s.call = .idle → s.returned ≠ [] → s.sock = some {}
  /-- A call returns, wherever the bytes are cut. -/
  returns : Acc (fun later s => s.Reads fs config later) s ∧
    (s.call ≠ .idle → ∃ later, s.Reads fs config later)
  /-- A `set` is successful unless a file cannot be written. -/
  stored : (∀ access, fs.writeFails access = false) → ∀ r ∈ s.returned, ∀ key value,
    r.op = .set key value → r.value = some []
  /-- After a successful `set` a `get` returns the value, if no write fails unnoticed. -/
  found : (∀ access, fs.Notices access) →
    ∀ (earlier between later : List Returned) (set get : Returned) (key value : Bytes),
    s.returned = earlier ++ set :: (between ++ get :: later) → set.op = .set key value →
      set.value = some [] → (∀ r ∈ between, Harmless key r.op) → get.op = .get key →
        get.value = some value
  /-- A `get` of a key that was never stored returns nothing. -/
  missing : ∀ (earlier later : List Returned) (get : Returned) (key : Bytes),
    s.returned = earlier ++ get :: later → get.op = .get key → (∀ data, .put key data ∉ before) →
      (∀ r ∈ earlier, ∀ value, r.op ≠ .set key value) → get.value = none

theorem value_get (store : Cache.DiskStore) (key : Bytes) :
    ((Operation.get key).reply fs store).value = (store.get fs key).1 := by
  rw [Operation.reply]
  cases (store.get fs key).1 <;> rfl

theorem put_of_value {store : Cache.DiskStore} {key value : Bytes}
    (hvalue : ((Operation.set key value).reply fs store).value = some []) :
    (store.put fs key value).1 = true := by
  rw [Operation.reply] at hvalue
  split at hvalue
  · assumption
  · cases hvalue

/-- Without a budget only a write that fails keeps a value out. -/
theorem value_set (hwrite : ∀ access, fs.writeFails access = false) {store : Cache.DiskStore}
    (hmax : store.maxBytes = 0) (key value : Bytes) :
    ((Operation.set key value).reply fs store).value = some [] := by
  have hput : (store.put fs key value).1 = true :=
    Cache.DiskStore.put_ok hwrite fun hlarge => hlarge.1 hmax
  rw [Operation.reply, if_pos hput]
  rfl

theorem bounded_of_usual {before : List Cache.StoreOp} (hbefore : ∀ op ∈ before, Usual op) :
    Bounded ((Cache.DiskStore.reopen fs 0 {}).run fs before) := by
  refine Cache.DiskStore.labelled_run (Cache.DiskStore.labelled_reopen_empty ..)
    fun key data hmem => ?_
  obtain ⟨hkey, hdata⟩ : key.length ≤ kMaxBulkBytes ∧ data.length ≤ kMaxBulkBytes :=
    hbefore _ hmem
  exact ⟨hkey.trans_lt (by decide), fun _ hkept => length_of_encodeFile hdata hkept⟩

variable (fs) in
/-- What is done before a session and in it. -/
theorem run_of_after (before : List Cache.StoreOp) (ops : List Operation) :
    after fs ((Cache.DiskStore.reopen fs 0 {}).run fs before) ops =
      (Cache.DiskStore.reopen fs 0 {}).run fs (before ++ ops.map Operation.storeOp) := by
  simp [after, Cache.DiskStore.run]

theorem usual_of_fits {before : List Cache.StoreOp} (hbefore : ∀ op ∈ before, Usual op)
    {ops : List Operation} (hops : ∀ op ∈ ops, op.Fits) :
    ∀ op ∈ before ++ ops.map Operation.storeOp, Usual op := by
  intro op hop
  rcases List.mem_append.mp hop with hold | hnew
  · exact hbefore op hold
  · obtain ⟨op', hop', rfl⟩ := List.mem_map.mp hnew
    cases op' with
    | get key => trivial
    | set key value => exact hops _ hop'

theorem InStep.found (hread : ∀ access, fs.readFails access = false)
    (hnoticed : ∀ access, fs.Notices access) {before : List Cache.StoreOp}
    (hbefore : ∀ op ∈ before, Usual op)
    (hs : InStep fs ((Cache.DiskStore.reopen fs 0 {}).run fs before) s)
    {earlier between later : List Returned} {set get : Returned} {key value : Bytes}
    (hsplit : s.returned = earlier ++ set :: (between ++ get :: later))
    (hset : set.op = .set key value) (hstored : set.value = some [])
    (hbetween : ∀ r ∈ between, Harmless key r.op) (hget : get.op = .get key) :
    get.value = some value := by
  have hcalls : s.calls = earlier.map Returned.op ++
      .set key value :: (between ++ get :: later).map Returned.op := by
    rw [calls, hsplit, List.map_append, List.map_cons, hset]
  have hfits := hs.fits
  rw [hcalls] at hfits
  rw [hs.returned] at hsplit
  have hsetAnswer := answer_of_answers hsplit
  rw [← List.cons_append, ← List.append_assoc] at hsplit
  have hgetAnswer := answer_of_answers hsplit
  have hrun := run_of_after fs before (earlier.map Returned.op)
  have husual := usual_of_fits hbefore fun op hop => hfits op (List.mem_append_left _ hop)
  generalize hstore : after fs ((Cache.DiskStore.reopen fs 0 {}).run fs before)
    (earlier.map Returned.op) = store at hsetAnswer hrun
  have hput : (store.put fs key value).1 = true := by
    refine put_of_value ?_
    rw [← hset, ← hstored, hsetAnswer]
    rfl
  obtain ⟨hkey, -⟩ : (Operation.set key value).Fits := hfits _ (by simp)
  have hsound : store.Sound fun _ _ => True := by
    rw [hrun]
    refine Cache.DiskStore.sound_run hnoticed (Cache.DiskStore.sound_reopen_empty ..)
      fun other data hmem => ?_
    have hother : other.length ≤ kMaxBulkBytes := (husual _ hmem).1
    exact ⟨hother.trans_lt (by decide), trivial⟩
  have hmax : store.maxBytes = 0 := by
    rw [hrun]
    exact Cache.DiskStore.unlimited_run rfl fun maxBytes hmem => husual _ hmem
  have hbetween' : ∀ op ∈ between.map Returned.op, Harmless key op := by simpa using hbetween
  rw [hgetAnswer, answer, hget, value_get, List.map_append, List.map_cons, hset, after_append,
    hstore]
  exact get_after_set hread hmax hsound hkey hput
    (Cache.DiskStore.writesWhole_of_notices (hnoticed _) hput) hbetween'

theorem InStep.missing {before : List Cache.StoreOp} (hbefore : ∀ op ∈ before, Usual op)
    (hs : InStep fs ((Cache.DiskStore.reopen fs 0 {}).run fs before) s)
    {earlier later : List Returned} {get : Returned} {key : Bytes}
    (hsplit : s.returned = earlier ++ get :: later) (hget : get.op = .get key)
    (hpast : ∀ data, .put key data ∉ before)
    (hearlier : ∀ r ∈ earlier, ∀ value, r.op ≠ .set key value) : get.value = none := by
  have hfits : ∀ r ∈ earlier, r.op.Fits := by
    intro r hr
    refine hs.fits r.op ?_
    rw [calls, hsplit]
    exact List.mem_map_of_mem (List.mem_append_left _ hr)
  rw [hs.returned] at hsplit
  have hanswer := answer_of_answers hsplit
  have husual := @usual_of_fits before hbefore (earlier.map Returned.op) (by simpa using hfits)
  rw [hanswer, answer, hget, value_get, run_of_after]
  refine get_never_put husual fun data hmem => ?_
  · rcases List.mem_append.mp hmem with hold | hnew
    · exact hpast data hold
    · obtain ⟨op', hop', hput⟩ := List.mem_map.mp hnew
      obtain ⟨r, hr, rfl⟩ := List.mem_map.mp hop'
      cases hr' : r.op with
      | get key' =>
          rw [hr'] at hput
          cases hput
      | set key' value =>
          rw [hr'] at hput
          cases hput
          exact hearlier r hr _ hr'

/-- Without a budget every call that returns has been told the truth. -/
theorem InStep.agreement (hread : ∀ access, fs.readFails access = false)
    {before : List Cache.StoreOp} (hbefore : ∀ op ∈ before, Usual op)
    {corpus : Palimpsest.CorpusIndex}
    (hs : InStep fs ((Cache.DiskStore.reopen fs 0 {}).run fs before) s) :
    s.Agreement fs config ⟨(Cache.DiskStore.reopen fs 0 {}).run fs before, corpus⟩ before := by
  have hmax : ((Cache.DiskStore.reopen fs 0 {}).run fs before).maxBytes = 0 :=
    Cache.DiskStore.unlimited_run rfl fun maxBytes hmem => hbefore _ hmem
  have hbounded : Bounded ((Cache.DiskStore.reopen fs 0 {}).run fs before) :=
    bounded_of_usual hbefore
  refine ⟨?_, fun hidle hsome => ?_, ⟨hs.acc hbounded, hs.exists_reads⟩,
    fun hwrite r hr key value hset => ?_, ?_, ?_⟩
  · rw [hs.returned]
    exact consumed_answers ⟨_, corpus⟩ s.calls
  · rw [(hs.idle hidle).2, if_neg hsome]
  · obtain ⟨earlier, later, hsplit⟩ := List.append_of_mem hr
    rw [hs.returned] at hsplit
    rw [answer_of_answers hsplit, answer, hset]
    exact value_set hwrite (unlimited_after hmax _) key value
  · intro hnoticed earlier between later set get key value hsplit hset hstored hbetween hget
    exact hs.found hread hnoticed hbefore hsplit hset hstored hbetween hget
  · intro earlier later get key hsplit hget hpast hearlier
    exact hs.missing hbefore hsplit hget hpast hearlier

/-- Client and daemon agree on the wire: cut and taken in any way, the bytes of an operation are
its command; and in every session of calls that fit, on an archive without a budget, every call
returns having read the reply to its command and nothing else, and what the `get`s return is
what was stored. -/
theorem wire_agreement (fs : Cache.FileSystem) (hread : ∀ access, fs.readFails access = false)
    (config : Palimpsest.CorpusConfig) (corpus : Palimpsest.CorpusIndex)
    (before : List Cache.StoreOp) (hbefore : ∀ op ∈ before, Usual op) :
    (∀ op : Operation, op.Fits → ∀ chunks : List (Bytes × Bool), bytesOf chunks = op.request →
      let connection := feedChunks {} chunks
      connection.fault = none ∧ connection.commands = [op.command] ∧ connection.parser.buf = []) ∧
    ∀ s : Session,
      Reaches (act fs config) Fitting
        { archive := ⟨(Cache.DiskStore.reopen fs 0 {}).run fs before, corpus⟩ } s →
      s.Agreement fs config ⟨(Cache.DiskStore.reopen fs 0 {}).run fs before, corpus⟩ before := by
  refine ⟨fun op hop chunks hbytes => ?_, fun s hreach => ?_⟩
  · have hwhole : ({} : RespParser).feed (bytesOf chunks) = (none, ⟨[], [op.command]⟩) :=
      feed_whole hop hbytes rfl
    obtain ⟨hfault, hcommands, hbuf⟩ := feed_unsliced chunks
    rw [hwhole] at hfault hcommands hbuf
    exact ⟨hfault, hcommands, hbuf rfl⟩
  · exact (inStep_of_reaches (bounded_of_usual hbefore) hreach).agreement hread hbefore

/-- A value that looks like a reply, stored and read back; neither the daemon nor the client gets
a line in one piece. -/
theorem wire_agreement_small :
    let archive : Archive := ⟨(Cache.DiskStore.reopen .faultless 0 {}).run .faultless [], {}⟩
    let value := ascii "$3\r\n+OK\r\n"
    ∃ s, Reaches (act .faultless {}) Fitting { archive } s ∧
      s.returned = [⟨.set (ascii "k") value, respSimple (ascii "OK"), some []⟩,
        ⟨.get (ascii "k"), respBulk value, some value⟩] ∧
      s.Agreement .faultless {} archive [] := by
  obtain ⟨s, hreach, hs⟩ := exists_reaches (act .faultless {}) Fitting
    { archive := ⟨(Cache.DiskStore.reopen .faultless 0 {}).run .faultless [], {}⟩ }
    [.call (.set (ascii "k") (ascii "$3\r\n+OK\r\n")), .daemonReads 3, .daemonReads 32,
      .clientReads 1, .clientReads 4, .call (.get (ascii "k")), .daemonReads 20, .clientReads 4,
      .clientReads 11]
    (fun s => decide (s.returned =
      [⟨.set (ascii "k") (ascii "$3\r\n+OK\r\n"), respSimple (ascii "OK"), some []⟩,
        ⟨.get (ascii "k"), respBulk (ascii "$3\r\n+OK\r\n"), some (ascii "$3\r\n+OK\r\n")⟩]))
    (by decide +kernel)
  have hagrees := (wire_agreement .faultless (fun _ => rfl) {} {} [] nofun).2 s hreach
  exact ⟨s, hreach, of_decide_eq_true hs, hagrees⟩

end Session

end Reame.Arca
