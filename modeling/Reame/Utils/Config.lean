import Mathlib.Data.Finmap
import Reame.Core.Backend
import Reame.Foundation.TextLines
import Reame.Foundation.Wire

/-!
# Configuration files

`Config::parse` reads an INI-style text line by line into a map from keys to values; a key
under a section header is `section.key`, and a later assignment of a key overwrites an earlier
one.  The first line that is none of a comment, a header and an assignment ends the reading
with its number and a message.

What a line says does not depend on the lines before it (`classify`), so that reading a text
is classifying its lines, and then going through them (`parse_eq`).
-/

namespace Reame.Utils

open TextLines Wire

/-- `ConfigError`. -/
structure ConfigError where
  what : Bytes
  line : ℕ
deriving DecidableEq, Repr

/-- `Config`: `values_`. -/
structure Config where
  values : Finmap fun _ : Bytes => Bytes
deriving DecidableEq

/-! ## Reading -/

/-- A blank of `trim`. -/
def isBlank (b : UInt8) : Bool := b == 32 || b == 9 || b == 13 || b == 10

/-- `trim`. -/
def trim (s : Bytes) : Bytes := strip isBlank s

/-- `to_lower`. -/
def toLower (s : Bytes) : Bytes := s.map Wire.toLower

/-- What the loop of `parse` carries from line to line. -/
structure Parsing where
  cfg : Config
  sectionName : Bytes
  lineNo : ℕ
deriving DecidableEq

/-- The start of the loop. -/
def Parsing.initial : Parsing := ⟨⟨∅⟩, [], 0⟩

/-- The loop of `parse`, for one line. -/
def parseLine (s : Parsing) (line : Bytes) : Except ConfigError Parsing :=
  let s := { s with lineNo := s.lineNo + 1 }
  let t := trim line
  if t = [] ∨ t.head? = some (chr '#') ∨ t.head? = some (chr ';') then .ok s
  else if t.head? = some (chr '[') then
    if t.getLast? ≠ some (chr ']') then
      .error ⟨ascii "unterminated section header: " ++ t, s.lineNo⟩
    else
      let sectionName := trim ((t.drop 1).take (t.length - 2))
      if sectionName = [] then .error ⟨ascii "empty section name", s.lineNo⟩
      else .ok { s with sectionName }
  else
    match cut (chr '=') t with
    | none => .error ⟨ascii "expected 'key = value': " ++ t, s.lineNo⟩
    | some (left, right) =>
        let key := trim left
        if key = [] then .error ⟨ascii "empty key", s.lineNo⟩
        else
          let value := trim right
          let fullKey := if s.sectionName = [] then key else s.sectionName ++ ascii "." ++ key
          .ok { s with cfg := ⟨s.cfg.values.insert fullKey value⟩ }

/-- `Config::parse` and `Config::parse_string`. -/
def Config.parse (text : Bytes) : Except ConfigError Config :=
  ((lines 10 text).foldlM parseLine Parsing.initial).map Parsing.cfg

/-! ## Looking up -/

namespace Config

variable (cfg : Config) (key : Bytes)

/-- `Config::has`. -/
def has : Bool := (cfg.values.lookup key).isSome

/-- `Config::size`. -/
def size : ℕ := cfg.values.keys.card

/-- `Config::get_string`. -/
def getString : Except ConfigError Bytes :=
  match cfg.values.lookup key with
  | none => .error ⟨ascii "missing config key: " ++ key, 0⟩
  | some value => .ok value

/-- The `pos` of `std::stoll`: where the number ends. -/
def stollEnd (raw : Bytes) : ℕ :=
  let text := raw.dropWhile isSpace
  let sign := text.head? = some 45 ∨ text.head? = some 43
  let digits := (if sign then text.drop 1 else text).takeWhile isDigit
  (raw.length - text.length) + (if sign then 1 else 0) + digits.length

/-- `Config::get_int`. -/
def getInt : Except ConfigError ℤ := do
  let raw ← cfg.getString key
  let notInteger : ConfigError :=
    ⟨ascii "key '" ++ key ++ ascii "' is not an integer: '" ++ raw ++ ascii "'", 0⟩
  match stol raw with
  | .error _ => throw notInteger
  | .ok v => if stollEnd raw ≠ raw.length then throw notInteger else pure v

/-- `Config::get_bool`. -/
def getBool : Except ConfigError Bool := do
  let raw ← cfg.getString key
  let lower := toLower raw
  if lower = ascii "true" ∨ lower = ascii "yes" ∨ lower = ascii "on" ∨ lower = ascii "1" then
    pure true
  else if lower = ascii "false" ∨ lower = ascii "no" ∨ lower = ascii "off" ∨ lower = ascii "0" then
    pure false
  else
    throw ⟨ascii "key '" ++ key ++ ascii "' is not a boolean: '" ++ raw ++ ascii "'", 0⟩

/-- A getter with a default. -/
def getOr {α : Type} (get : Config → Bytes → Except ConfigError α) (default : α) :
    Except ConfigError α :=
  if cfg.has key then get cfg key else .ok default

/-- `Config::get_string` with a default. -/
def getStringOr (default : Bytes) : Except ConfigError Bytes := cfg.getOr key getString default

/-- `Config::get_int` with a default. -/
def getIntOr (default : ℤ) : Except ConfigError ℤ := cfg.getOr key getInt default

/-- `Config::get_bool` with a default. -/
def getBoolOr (default : Bool) : Except ConfigError Bool := cfg.getOr key getBool default

end Config

/-! ## What a line says -/

/-- A line that `parse` accepts. -/
inductive Line
  | ignored
  | header (name : Bytes)
  | assign (key value : Bytes)
deriving DecidableEq, Repr

/-- A line on its own: what it says, or what is wrong with it. -/
def classify (line : Bytes) : Except Bytes Line :=
  let t := trim line
  if t = [] ∨ t.head? = some (chr '#') ∨ t.head? = some (chr ';') then .ok .ignored
  else if t.head? = some (chr '[') then
    if t.getLast? ≠ some (chr ']') then .error (ascii "unterminated section header: " ++ t)
    else
      let name := trim ((t.drop 1).take (t.length - 2))
      if name = [] then .error (ascii "empty section name") else .ok (.header name)
  else
    match cut (chr '=') t with
    | none => .error (ascii "expected 'key = value': " ++ t)
    | some (left, right) =>
        if trim left = [] then .error (ascii "empty key")
        else .ok (.assign (trim left) (trim right))

/-- The key that a name stands for under a header; no header is the empty one. -/
def fullKey (sectionName key : Bytes) : Bytes :=
  if sectionName = [] then key else sectionName ++ ascii "." ++ key

/-- The loop of `parse`, for a line that has been accepted. -/
def Parsing.read (s : Parsing) : Line → Parsing
  | .ignored => { s with lineNo := s.lineNo + 1 }
  | .header name => { s with sectionName := name, lineNo := s.lineNo + 1 }
  | .assign key value =>
      ⟨⟨s.cfg.values.insert (fullKey s.sectionName key) value⟩, s.sectionName, s.lineNo + 1⟩

/-- What a line says does not depend on the lines before it. -/
theorem parseLine_eq (s : Parsing) (line : Bytes) :
    parseLine s line =
      match classify line with
      | .error what => .error ⟨what, s.lineNo + 1⟩
      | .ok said => .ok (s.read said) := by
  unfold parseLine classify
  dsimp only
  by_cases hignored : trim line = [] ∨ (trim line).head? = some (chr '#') ∨
      (trim line).head? = some (chr ';')
  · rw [if_pos hignored, if_pos hignored]
    rfl
  rw [if_neg hignored, if_neg hignored]
  by_cases hheader : (trim line).head? = some (chr '[')
  · rw [if_pos hheader, if_pos hheader]
    split_ifs <;> rfl
  rw [if_neg hheader, if_neg hheader]
  cases cut (chr '=') (trim line) with
  | none => rfl
  | some sides =>
      dsimp only
      by_cases hkey : trim sides.1 = []
      · rw [if_pos hkey, if_pos hkey]
      · rw [if_neg hkey, if_neg hkey]
        rfl

/-- What the lines of a document come to. -/
def meaning (doc : List Line) : Config := (doc.foldl Parsing.read Parsing.initial).cfg

/-- The lines that are accepted are gone through. -/
theorem foldlM_parseLine {ls : List Bytes} {doc : List Line} (s : Parsing)
    (hdoc : ls.map classify = doc.map .ok) :
    ls.foldlM parseLine s = .ok (doc.foldl Parsing.read s) := by
  induction ls generalizing s doc with
  | nil =>
      obtain rfl : doc = [] := List.map_eq_nil_iff.mp hdoc.symm
      rfl
  | cons line ls ih =>
      cases doc with
      | nil => cases hdoc
      | cons said doc =>
          rw [List.map_cons, List.map_cons, List.cons.injEq] at hdoc
          have hline : parseLine s line = .ok (s.read said) := by
            rw [parseLine_eq, hdoc.1]
          rw [List.foldlM_cons, hline, List.foldl_cons]
          exact ih (s.read said) hdoc.2

@[simp] theorem lineNo_read (s : Parsing) (said : Line) :
    (s.read said).lineNo = s.lineNo + 1 := by
  cases said <;> rfl

theorem lineNo_foldl (doc : List Line) (s : Parsing) :
    (doc.foldl Parsing.read s).lineNo = s.lineNo + doc.length := by
  induction doc generalizing s with
  | nil => rfl
  | cons said doc ih =>
      rw [List.foldl_cons, ih, lineNo_read, List.length_cons]
      omega

/-- Lines up to the first that is not accepted. -/
theorem exists_doc (ls : List Bytes) :
    (∃ doc : List Line, ls.map classify = doc.map .ok) ∨
      ∃ before line after, ∃ doc : List Line, ∃ what, ls = before ++ line :: after ∧
        before.map classify = doc.map .ok ∧ classify line = .error what := by
  induction ls with
  | nil => exact Or.inl ⟨[], rfl⟩
  | cons line ls ih =>
      cases hline : classify line with
      | error what => exact Or.inr ⟨[], line, ls, [], what, rfl, rfl, hline⟩
      | ok said =>
          rcases ih with ⟨doc, hdoc⟩ | ⟨before, bad, after, doc, what, rfl, hdoc, hbad⟩
          · exact Or.inl ⟨said :: doc, by rw [List.map_cons, List.map_cons, hline, hdoc]⟩
          · refine Or.inr ⟨line :: before, bad, after, said :: doc, what, rfl, ?_, hbad⟩
            rw [List.map_cons, List.map_cons, hline, hdoc]

/-- The reading of a text whose lines are all accepted. -/
theorem parse_of_classify {text : Bytes} {doc : List Line}
    (hdoc : (lines 10 text).map classify = doc.map .ok) :
    Config.parse text = .ok (meaning doc) := by
  rw [Config.parse, foldlM_parseLine Parsing.initial hdoc]
  rfl

/-- The reading of a text ends at the first line that is not accepted. -/
theorem parse_of_bad {text : Bytes} {before after : List Bytes} {line what : Bytes}
    {doc : List Line} (htext : lines 10 text = before ++ line :: after)
    (hdoc : before.map classify = doc.map .ok) (hline : classify line = .error what) :
    Config.parse text = .error ⟨what, before.length + 1⟩ := by
  have hlength : doc.length = before.length := by
    rw [← List.length_map (f := (.ok : Line → Except Bytes Line)), ← hdoc, List.length_map]
  have hno := lineNo_foldl doc Parsing.initial
  rw [Config.parse, htext, List.foldlM_append, foldlM_parseLine Parsing.initial hdoc]
  show Except.map Parsing.cfg
    (parseLine (doc.foldl Parsing.read Parsing.initial) line >>= fun s =>
      after.foldlM parseLine s) = _
  rw [parseLine_eq, hline, hno, hlength]
  show Except.error (⟨what, 0 + before.length + 1⟩ : ConfigError) = _
  rw [Nat.zero_add]

end Reame.Utils
