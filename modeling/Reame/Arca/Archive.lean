import Reame.Arca.RespParser
import Reame.Cache.DiskStore
import Reame.Palimpsest.CorpusIndex

/-!
# The archive behind the daemon

`Archive::dispatch`: one command in, the bytes of one reply out.  `SET`, `GET`, `DEL`,
`EXISTS` and `DBSIZE` work on the disk store, `ARCA.OBSERVE` and `ARCA.DRAFT` on the
generation memory, whose tokens travel as little-endian 32-bit words.  A command with the
wrong number of arguments, or of an unknown name, is answered with an error.

The `std::mutex` is not modelled: a command is one step.
-/

namespace Reame.Arca

open Wire

/-- `resp_integer`. -/
def respInteger (v : ℤ) : Bytes := 58 :: (decimalLong v ++ crlf)

/-! ## Names, tokens and numbers -/

/-- `upper`: `std::toupper` in the C locale. -/
def upper (s : Bytes) : Bytes := s.map fun b => if 97 ≤ b ∧ b ≤ 122 then b - 32 else b

/-- The commands that the archive knows. -/
inductive Verb
  | ping
  | set
  | get
  | del
  | exist
  | dbsize
  | observe
  | draft
deriving DecidableEq, Repr

/-- The name that `dispatch` compares with. -/
def Verb.name : Verb → Bytes
  | .ping => ascii "PING"
  | .set => ascii "SET"
  | .get => ascii "GET"
  | .del => ascii "DEL"
  | .exist => ascii "EXISTS"
  | .dbsize => ascii "DBSIZE"
  | .observe => ascii "ARCA.OBSERVE"
  | .draft => ascii "ARCA.DRAFT"

/-- In the order of the comparisons. -/
def Verb.all : List Verb := [.ping, .set, .get, .del, .exist, .dbsize, .observe, .draft]

/-- The command of a name, in upper or lower case. -/
def verbOf (name : Bytes) : Option Verb := Verb.all.find? fun verb => upper name = verb.name

/-- `err_arity`. -/
def errArity (name : Bytes) : Bytes :=
  respError (ascii "ERR wrong number of arguments for '" ++ name ++ ascii "'")

/-- `pack_tokens`. -/
def packTokens (toks : List TokenId) : Bytes := toks.flatMap Palimpsest.tokenBytes

/-- `unpack_tokens`: `none` when the payload is not a whole number of words. -/
def unpackTokens (s : Bytes) : Option (List TokenId) :=
  if s.length % 4 ≠ 0 then none else some (Palimpsest.readTokens (s.length / 4) s)

/-- `std::stoi`. -/
def stoi (text : Bytes) : Except StolFault ℤ :=
  match stol text with
  | .error fault => .error fault
  | .ok n => if -2 ^ 31 ≤ n ∧ n < 2 ^ 31 then .ok n else .error .outOfRange

/-! ## Commands -/

/-- `Archive`. -/
structure Archive where
  store : Cache.DiskStore
  corpus : Palimpsest.CorpusIndex := {}

namespace Archive

variable (fs : Cache.FileSystem) (config : Palimpsest.CorpusConfig) (archive : Archive)

/-- `ARCA.OBSERVE`. -/
def observe (payload : Bytes) : Bytes × Archive :=
  match unpackTokens payload with
  | none => (respError (ascii "ERR token payload must be whole u32s"), archive)
  | some toks =>
      (respSimple (ascii "OK"), { archive with corpus := archive.corpus.observe config toks })

/-- `ARCA.DRAFT`. -/
def draft (payload length : Bytes) : Bytes :=
  match unpackTokens payload with
  | none => respError (ascii "ERR token payload must be whole u32s")
  | some tail =>
      match stoi length with
      | .error _ => respError (ascii "ERR draft length is not an integer")
      | .ok k =>
          if k ≤ 0 then respError (ascii "ERR draft length must be positive")
          else
            let draft := archive.corpus.draft config tail k
            if draft = [] then respNil else respBulk (packTokens draft)

/-- A known command with its arguments. -/
def execute : Verb → List Bytes → Bytes × Archive
  | .ping, _ => (respSimple (ascii "PONG"), archive)
  | .set, [key, value] =>
      let (stored, store) := archive.store.put fs key value
      (if stored then respSimple (ascii "OK")
        else respError (ascii "ERR value larger than the archive budget"),
        { archive with store })
  | .set, _ => (errArity (ascii "set"), archive)
  | .get, [key] =>
      let (data, store) := archive.store.get fs key
      (data.elim respNil respBulk, { archive with store })
  | .get, _ => (errArity (ascii "get"), archive)
  | .del, [key] =>
      let (removed, store) := archive.store.remove key
      (respInteger (if removed then 1 else 0), { archive with store })
  | .del, _ => (errArity (ascii "del"), archive)
  | .exist, [key] => (respInteger (if archive.store.contains key then 1 else 0), archive)
  | .exist, _ => (errArity (ascii "exists"), archive)
  | .dbsize, [] => (respInteger archive.store.entries.length, archive)
  | .dbsize, _ => (errArity (ascii "dbsize"), archive)
  | .observe, [payload] => archive.observe config payload
  | .observe, _ => (errArity (ascii "arca.observe"), archive)
  | .draft, [payload, length] => (archive.draft config payload length, archive)
  | .draft, _ => (errArity (ascii "arca.draft"), archive)

/-- `Archive::dispatch`. -/
def dispatch : Command → Bytes × Archive
  | [] => (respError (ascii "ERR empty command"), archive)
  | name :: args =>
      match verbOf name with
      | some verb => archive.execute fs config verb args
      | none => (respError (ascii "ERR unknown command '" ++ name ++ ascii "'"), archive)

/-- One command after another: the replies in a row, and the archive after them. -/
def dispatchAll (archive : Archive) : List Command → Bytes × Archive
  | [] => ([], archive)
  | cmd :: cmds =>
      let (reply, archive) := archive.dispatch fs config cmd
      let (replies, archive) := dispatchAll archive cmds
      (reply ++ replies, archive)

theorem dispatchAll_append (cmds later : List Command) :
    archive.dispatchAll fs config (cmds ++ later) =
      let first := archive.dispatchAll fs config cmds
      let second := first.2.dispatchAll fs config later
      (first.1 ++ second.1, second.2) := by
  induction cmds generalizing archive with
  | nil => rfl
  | cons cmd cmds ih => simp [dispatchAll, ih]

end Archive

end Reame.Arca
