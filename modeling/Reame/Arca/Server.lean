import Reame.Arca.Archive
import Reame.Arca.RespLengths

/-!
# A connection of the daemon

`ArcaServer::Impl::serve` feeds what `read_some` returns to the parser, dispatches the
commands that are ready and writes their replies.  If `feed` throws a `RespError` it
writes one error and closes the connection: the commands that the same read has
completed are neither executed nor answered.

`reference` is what the stream asks for, all its bytes at once: every complete command
before the first malformed byte, and then the error.  A connection does that exactly if
no read completes a command and also shows that the input is malformed
(`serve_eq_reference_iff`), as when the bytes arrive one by one (`cleanReads_bytes`).
A read brings at most 8192 bytes, so what a stream makes the daemon do is independent of
its slicing exactly if its commands are complete that far ahead of the first malformed
byte (`served_iff`).

Replies are written in full: a client that is gone is the end of the reads.  A number
that is no `long` makes `std::stol` throw what `serve` does not catch.
-/

namespace Reame.Arca

open Wire Incremental

/-- How a connection ends. -/
inductive Exit
  /-- `read_some` fails: the client is gone, or the daemon stops. -/
  | hungUp
  /-- The input is malformed, and the daemon says so. -/
  | protocolError
  /-- An exception leaves the thread, and with it goes the daemon. -/
  | terminated (fault : StolFault)
deriving DecidableEq, Repr

/-- What a connection has done. -/
@[ext]
structure Served where
  dispatched : List Command
  written : Bytes
  archive : Archive
  exit : Exit

/-- `std::string(text)` of the C string that `what()` returns. -/
def cString (text : Bytes) : Bytes := text.takeWhile (· ≠ 0)

/-- What `serve` does when `feed` throws. -/
def onThrow (archive : Archive) : FeedFault → Served
  | .respError what => ⟨[], respError (ascii "ERR " ++ cString what), archive, .protocolError⟩
  | .stolFault fault => ⟨[], [], archive, .terminated fault⟩

/-- Put commands and their replies in front. -/
def Served.behind (commands : List Command) (replies : Bytes) (later : Served) : Served :=
  { later with
    dispatched := commands ++ later.dispatched
    written := replies ++ later.written }

variable (fs : Cache.FileSystem) (config : Palimpsest.CorpusConfig)

/-- `ArcaServer::Impl::serve`; a chunk is what one `read_some` returns. -/
def serve (archive : Archive) (parser : RespParser) : List Bytes → Served
  | [] => ⟨[], [], archive, .hungUp⟩
  | chunk :: chunks =>
      match parser.feed chunk with
      | (some fault, _) => onThrow archive fault
      | (none, parser) =>
          let (ready, parser) := parser.take
          let (out, archive) := archive.dispatchAll fs config ready
          (serve archive parser chunks).behind ready out

/-! ## The reference -/

/-- The commands that some bytes complete; empty lines do not count. -/
def commandsIn (bytes : Bytes) : List Command := (respParser.drain bytes).items.filter (· ≠ [])

/-- Some of the bytes are malformed. -/
def Malformed (bytes : Bytes) : Prop := (respParser.drain bytes).error ≠ none

instance (bytes : Bytes) : Decidable (Malformed bytes) := inferInstanceAs (Decidable (_ ≠ _))

/-- Every complete command before the first malformed byte is executed and answered. -/
def reference (archive : Archive) (bytes : Bytes) : Served :=
  let (out, archive) := archive.dispatchAll fs config (commandsIn bytes)
  let ending : Served :=
    match (respParser.drain bytes).error with
    | none => ⟨[], [], archive, .hungUp⟩
    | some fault => onThrow archive fault
  ending.behind (commandsIn bytes) out

/-- Two connections dispatch the same commands and write the same bytes. -/
def Served.Agrees (a b : Served) : Prop := a.dispatched = b.dispatched ∧ a.written = b.written

/-- The slicing makes no difference for these bytes. -/
def Unsliced (archive : Archive) (bytes : Bytes) : Prop :=
  ∀ chunks chunks' : List Bytes, Slices chunks bytes → Slices chunks' bytes →
    (serve fs config archive {} chunks).Agrees (serve fs config archive {} chunks')

/-- Where the input is malformed, all its commands are complete without the bytes of the last
read. -/
def EarlyCommands (bytes : Bytes) : Prop :=
  ∀ n ≤ bytes.length, Malformed (bytes.take n) →
    commandsIn (bytes.take (n - 8192)) = commandsIn bytes

/-- No read that shows that the input behind `fed` is malformed completes a command. -/
def CleanReads (fed : Bytes) (chunks : List Bytes) : Prop :=
  ∀ before chunk, before ++ [chunk] <+: chunks →
    Malformed (fed ++ before.flatten ++ chunk) →
      commandsIn (fed ++ before.flatten ++ chunk) = commandsIn (fed ++ before.flatten)

/-! ## Commands in a stream -/

variable {fed : Bytes} {fs config}

/-- Nothing is complete and nothing is wrong yet. -/
def Pending (fed : Bytes) : Prop := respParser.drain fed = ⟨[], fed, none⟩

theorem commandsIn_of_pending (hfed : Pending fed) : commandsIn fed = [] := by
  rw [commandsIn, hfed]
  rfl

theorem malformed_append {bytes : Bytes} (hbytes : Malformed bytes) (later : Bytes) :
    Malformed (bytes ++ later) ∧ commandsIn (bytes ++ later) = commandsIn bytes := by
  obtain ⟨fault, hfault⟩ := Option.ne_none_iff_exists'.mp hbytes
  have happend := respParser.drain_append_of_reject hfault later
  exact ⟨by simp [Malformed, happend], by simp [commandsIn, happend]⟩

theorem commandsIn_append {bytes : Bytes} (hbytes : ¬ Malformed bytes) (later : Bytes) :
    commandsIn (bytes ++ later) =
      commandsIn bytes ++ commandsIn ((respParser.drain bytes).rest ++ later) := by
  have happend := respParser.drain_append (not_not.mp hbytes) later
  simp [commandsIn, happend, Drained.behind]

theorem malformed_append_iff {bytes : Bytes} (hbytes : ¬ Malformed bytes) (later : Bytes) :
    Malformed (bytes ++ later) ↔ Malformed ((respParser.drain bytes).rest ++ later) := by
  have happend := respParser.drain_append (not_not.mp hbytes) later
  simp [Malformed, happend, Drained.behind]

/-- What is complete stays complete. -/
theorem commandsIn_prefix (bytes later : Bytes) :
    commandsIn bytes <+: commandsIn (bytes ++ later) := by
  by_cases hbytes : Malformed bytes
  · rw [(malformed_append hbytes later).2]
  · rw [commandsIn_append hbytes later]
    exact List.prefix_append ..

theorem pending_rest {bytes : Bytes} (hbytes : ¬ Malformed bytes) :
    Pending (respParser.drain bytes).rest :=
  respParser.drain_rest (not_not.mp hbytes)

/-- One more byte completes a command or shows that the input is malformed, not both. -/
theorem clean_byte (hfed : Pending fed) {b : UInt8} (hbad : Malformed (fed ++ [b])) :
    commandsIn (fed ++ [b]) = [] := by
  cases hparse : respParser.parse (fed ++ [b]) with
  | more => simp [commandsIn, respParser.drain_of_more hparse]
  | reject fault => simp [commandsIn, respParser.drain_of_reject hparse]
  | item command rest =>
      obtain ⟨c, hsplit, hc⟩ := parseOne_sound.1 command rest hparse
      rcases List.eq_nil_or_concat rest with rfl | ⟨front, last, rfl⟩
      · -- The command ends with the byte, and nothing is left that could be wrong.
        have hempty : Malformed [] := by
          simpa [Malformed, respParser.drain_of_item hparse, Drained.behind] using hbad
        exact absurd rfl hempty
      · -- The command was there before the byte.
        obtain ⟨hfront, -⟩ : fed = c ++ front ∧ [b] = [last] := by
          refine List.append_inj' (hsplit.trans ?_) rfl
          simp
        obtain ⟨earlier, hearlier⟩ := parseOne_text hc front
        have hitems := congrArg Drained.items hfed
        rw [hfront, respParser.drain_of_item hearlier] at hitems
        cases hitems

/-! ## Reading chunk by chunk -/

theorem cleanReads_cons_of_malformed {chunk : Bytes} (hchunk : Malformed (fed ++ chunk))
    (chunks : List Bytes) :
    CleanReads fed (chunk :: chunks) ↔ commandsIn (fed ++ chunk) = commandsIn fed := by
  constructor
  · intro hclean
    have hfirst := hclean [] chunk (by simp)
    simp only [List.flatten_nil, List.append_nil] at hfirst
    exact hfirst hchunk
  · intro hsame before last hprefix hbad
    cases before with
    | nil =>
        obtain ⟨rfl, -⟩ : last = chunk ∧ [] <+: chunks := by simpa using hprefix
        simpa using hsame
    | cons first before =>
        obtain ⟨rfl, -⟩ : first = chunk ∧ before ++ [last] <+: chunks := by simpa using hprefix
        have hall := malformed_append hchunk (before.flatten ++ last)
        have hfront := malformed_append hchunk before.flatten
        simp only [List.flatten_cons, ← List.append_assoc] at hall hfront ⊢
        rw [hall.2, hfront.2]

theorem cleanReads_cons {chunk : Bytes} (hchunk : ¬ Malformed (fed ++ chunk)) (chunks : List Bytes) :
    CleanReads fed (chunk :: chunks) ↔
      CleanReads (respParser.drain (fed ++ chunk)).rest chunks := by
  -- Behind the first chunk both sides speak of the same reads.
  have hsame : ∀ before last : Bytes,
      (Malformed (fed ++ (chunk ++ before) ++ last) →
        commandsIn (fed ++ (chunk ++ before) ++ last) = commandsIn (fed ++ (chunk ++ before))) ↔
      (Malformed ((respParser.drain (fed ++ chunk)).rest ++ before ++ last) →
        commandsIn ((respParser.drain (fed ++ chunk)).rest ++ before ++ last) =
          commandsIn ((respParser.drain (fed ++ chunk)).rest ++ before)) := by
    intro before last
    have hbad := malformed_append_iff hchunk (before ++ last)
    have hlong := commandsIn_append hchunk (before ++ last)
    have hshort := commandsIn_append hchunk before
    simp only [← List.append_assoc] at hbad hlong hshort ⊢
    rw [hbad, hlong, hshort, List.append_cancel_left_eq]
  constructor
  · intro hclean before last hprefix
    refine (hsame before.flatten last).mp ?_
    rw [← List.flatten_cons]
    exact hclean (chunk :: before) last (by simpa using hprefix)
  · intro hclean before last hprefix hbad
    cases before with
    | nil =>
        obtain ⟨rfl, -⟩ : last = chunk ∧ [] <+: chunks := by simpa using hprefix
        simp only [List.flatten_nil, List.append_nil] at hbad
        exact absurd hbad hchunk
    | cons first before =>
        obtain ⟨rfl, hrest⟩ : first = chunk ∧ before ++ [last] <+: chunks := by simpa using hprefix
        rw [List.flatten_cons] at hbad ⊢
        exact (hsame before.flatten last).mpr (hclean before last hrest) hbad

/-- The reference goes on behind what a chunk has completed. -/
theorem reference_append {bytes : Bytes} (hbytes : ¬ Malformed bytes) (archive : Archive)
    (later : Bytes) :
    reference fs config archive (bytes ++ later) =
      let first := archive.dispatchAll fs config (commandsIn bytes)
      (reference fs config first.2 ((respParser.drain bytes).rest ++ later)).behind
        (commandsIn bytes) first.1 := by
  have herror : (respParser.drain (bytes ++ later)).error =
      (respParser.drain ((respParser.drain bytes).rest ++ later)).error := by
    rw [respParser.drain_append (not_not.mp hbytes), Drained.behind]
  simp only [reference, commandsIn_append hbytes, herror, Archive.dispatchAll_append]
  simp only [Served.behind, List.append_assoc]

theorem Served.behind_agrees_iff (commands : List Command) (replies : Bytes) (a b : Served) :
    (a.behind commands replies).Agrees (b.behind commands replies) ↔ a.Agrees b := by
  simp [Served.Agrees, Served.behind]

/-- A connection does what the bytes ask for, exactly if its reads are clean. -/
theorem serve_eq_reference_iff (archive : Archive) {parser : RespParser} (hready : parser.ready = [])
    (hbuf : Pending parser.buf) (chunks : List Bytes) :
    ((serve fs config archive parser chunks).Agrees
      (reference fs config archive (parser.buf ++ chunks.flatten))) ↔
        CleanReads parser.buf chunks := by
  induction chunks generalizing archive parser with
  | nil =>
      refine iff_of_true ?_ fun before chunk hprefix => by simp at hprefix
      rw [List.flatten_nil, List.append_nil, reference, commandsIn_of_pending hbuf, hbuf]
      exact ⟨rfl, rfl⟩
  | cons chunk chunks ih =>
      rw [List.flatten_cons, ← List.append_assoc, serve, RespParser.feed, hready]
      cases herror : (respParser.drain (parser.buf ++ chunk)).error with
      | some fault =>
          have hbad : Malformed (parser.buf ++ chunk) := by simp [Malformed, herror]
          have hlater := (malformed_append hbad chunks.flatten).2
          rw [cleanReads_cons_of_malformed hbad, commandsIn_of_pending hbuf, reference, hlater]
          have hsame := respParser.drain_append_of_reject herror chunks.flatten
          simp only [hsame]
          constructor
          · rintro ⟨hdispatched, -⟩
            cases fault with
            | respError what => simpa [onThrow, Served.behind] using hdispatched.symm
            | stolFault fault => simpa [onThrow, Served.behind] using hdispatched.symm
          · intro hnone
            rw [hnone]
            cases fault with
            | respError what => exact ⟨rfl, rfl⟩
            | stolFault fault => exact ⟨rfl, rfl⟩
      | none =>
          have hgood : ¬ Malformed (parser.buf ++ chunk) := by simp [Malformed, herror]
          rw [cleanReads_cons hgood, reference_append hgood]
          refine (Served.behind_agrees_iff _ _ _ _).trans ?_
          exact @ih _ ⟨_, []⟩ rfl (pending_rest hgood)

/-- The reads of single bytes are clean. -/
theorem cleanReads_bytes (hfed : Pending fed) (bytes : Bytes) :
    CleanReads fed (bytes.map ([·])) := by
  induction bytes generalizing fed with
  | nil => exact fun before chunk hprefix => by simp at hprefix
  | cons b bytes ih =>
      rw [List.map_cons]
      by_cases hbad : Malformed (fed ++ [b])
      · rw [cleanReads_cons_of_malformed hbad, clean_byte hfed hbad, commandsIn_of_pending hfed]
      · rw [cleanReads_cons hbad]
        exact ih (pending_rest hbad)

/-! ## Slicing a stream -/

theorem pending_nil : Pending [] := rfl

theorem Served.Agrees.trans_iff {a b c : Served} (hbc : b.Agrees c) : a.Agrees b ↔ a.Agrees c := by
  rw [Served.Agrees, Served.Agrees, hbc.1, hbc.2]

/-- A longer part of a stream has more commands. -/
theorem commandsIn_mono {bytes longer : Bytes} (hbegins : bytes <+: longer) :
    commandsIn bytes <+: commandsIn longer := by
  obtain ⟨later, rfl⟩ := hbegins
  exact commandsIn_prefix bytes later

/-- If the commands are complete early enough, every slicing is clean. -/
theorem cleanReads_of_early {chunks : List Bytes} {bytes : Bytes} (hchunks : Slices chunks bytes)
    (hearly : EarlyCommands bytes) : CleanReads [] chunks := by
  obtain ⟨rfl, hsizes⟩ := hchunks
  rintro before chunk ⟨after, rfl⟩ hbad
  have hsize : chunk.length ≤ 8192 := (hsizes chunk (by simp)).2
  have hflatten : (before ++ [chunk] ++ after).flatten =
      before.flatten ++ chunk ++ after.flatten := by simp
  rw [hflatten] at hearly
  rw [List.nil_append] at hbad ⊢
  have htake : (before.flatten ++ chunk ++ after.flatten).take (before.flatten ++ chunk).length =
      before.flatten ++ chunk := List.take_left
  have hcommands := hearly (before.flatten ++ chunk).length
    (by simp only [List.length_append]; omega) (by rwa [htake])
  rw [(malformed_append hbad after.flatten).2] at hcommands
  -- What is complete a read before the malformed byte is complete before the last read.
  have hfront : (before.flatten ++ chunk ++ after.flatten).take
      ((before.flatten ++ chunk).length - 8192) <+: before.flatten := by
    rw [List.append_assoc, List.take_append_of_le_length (by rw [List.length_append]; omega)]
    exact List.take_prefix _ _
  have hbelow := commandsIn_mono hfront
  rw [hcommands] at hbelow
  have hmore := commandsIn_prefix before.flatten chunk
  exact hbelow.eq_of_length_le hmore.length_le

/-- One read that ends with the first malformed byte, the others of one byte each. -/
theorem early_of_unsliced {archive : Archive} {bytes : Bytes}
    (hserve : ∀ chunks : List Bytes, (serve fs config archive {} chunks).Agrees
      (reference fs config archive chunks.flatten) ↔ CleanReads [] chunks)
    (hunsliced : Unsliced fs config archive bytes) : EarlyCommands bytes := by
  intro n hn hbad
  have hpos : n ≠ 0 := by
    rintro rfl
    exact hbad rfl
  let front := bytes.take (n - 8192)
  let last := (bytes.take n).drop (n - 8192)
  have hfront : front ++ last = bytes.take n := by
    have hsame : front = (bytes.take n).take (n - 8192) := by
      rw [List.take_take, Nat.min_eq_left (Nat.sub_le ..)]
    rw [hsame]
    exact List.take_append_drop ..
  have hlength : last.length = n - (n - 8192) := by
    rw [List.length_drop, List.length_take, Nat.min_eq_left hn]
  have hlast : Slices [last] last := slices_one (by omega) (by omega)
  have hslices : Slices (front.map ([·]) ++ [last] ++ (bytes.drop n).map ([·])) bytes := by
    have hall := ((slices_bytes front).append hlast).append (slices_bytes (bytes.drop n))
    rwa [hfront, List.take_append_drop] at hall
  have hsingle := (hserve (bytes.map ([·]))).mpr (cleanReads_bytes pending_nil bytes)
  rw [(slices_bytes bytes).1] at hsingle
  have hsame := (hsingle.trans_iff).mp (hunsliced _ _ hslices (slices_bytes bytes))
  have hwhole : (serve fs config archive {} (front.map ([·]) ++ [last] ++
      (bytes.drop n).map ([·]))).Agrees (reference fs config archive
        (front.map ([·]) ++ [last] ++ (bytes.drop n).map ([·])).flatten) := by
    rw [hslices.1]
    exact hsame
  have hclean := (hserve _).mp hwhole (front.map ([·])) last (List.prefix_append _ _)
  rw [List.nil_append, (slices_bytes front).1, hfront] at hclean
  rw [← hclean hbad, ← (malformed_append hbad (bytes.drop n)).2, List.take_append_drop]

/-- What a connection executes and answers is what its bytes ask for, exactly if its reads are
clean; and the slicing of a stream makes no difference exactly if its commands are complete
more than a read ahead of a malformed byte. -/
theorem served_iff (fs : Cache.FileSystem) (config : Palimpsest.CorpusConfig) (archive : Archive) :
    (∀ chunks : List Bytes, (serve fs config archive {} chunks).Agrees
      (reference fs config archive chunks.flatten) ↔ CleanReads [] chunks) ∧
    ∀ bytes : Bytes, Unsliced fs config archive bytes ↔ EarlyCommands bytes := by
  have hserve : ∀ chunks : List Bytes, (serve fs config archive {} chunks).Agrees
      (reference fs config archive chunks.flatten) ↔ CleanReads [] chunks := fun chunks =>
    @serve_eq_reference_iff fs config archive {} rfl pending_nil chunks
  refine ⟨hserve, fun bytes => ⟨early_of_unsliced hserve, fun hearly => ?_⟩⟩
  intro chunks chunks' hchunks hchunks'
  have hfirst := (hserve chunks).mpr (cleanReads_of_early hchunks hearly)
  have hsecond := (hserve chunks').mpr (cleanReads_of_early hchunks' hearly)
  rw [hchunks.1] at hfirst
  rw [hchunks'.1] at hsecond
  exact ⟨hfirst.1.trans hsecond.1.symm, hfirst.2.trans hsecond.2.symm⟩

/-- A `SET` and, behind it, a line that is no array size: in two reads the value is stored, in
one it is lost. -/
theorem pipelined_set_lost :
    let archive : Archive := { store := Cache.DiskStore.reopen .faultless 0 {} }
    let command := ascii "SET k v\r\n"
    let malformed := ascii "*x\r\n"
    let together := serve .faultless {} archive {} [command ++ malformed]
    let apart := serve .faultless {} archive {} [command, malformed]
    let error := respError (ascii "ERR non-numeric RESP length: x")
    (together.dispatched = [] ∧ together.written = error) ∧
      apart.dispatched = [[ascii "SET", ascii "k", ascii "v"]] ∧
        apart.written = respSimple (ascii "OK") ++ error := by
  decide +kernel

end Reame.Arca
