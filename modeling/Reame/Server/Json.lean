import Reame.Core.Backend
import Reame.Foundation.Utf8
import Reame.Foundation.Wire

/-!
# JSON values

The server reads and writes JSON with `nlohmann::json`.  The library itself is a parameter
(`JsonLibrary`): its parser and its number formats.  What the server relies on is modelled
here: `contains`, `value` and the conversions with the exceptions they throw, and the
exception of `dump`, which refuses to print a string that is not UTF-8.  The message of
that exception is ASCII (`valid_what_of_dumpError`).
-/

namespace Reame.Server

open Wire

/-- A `std::exception`: the engine's own, and any other. -/
inductive Exception
  | engineError (message : Bytes)
  | other (message : Bytes)
deriving DecidableEq, Repr

/-- `what()`, a C string. -/
def Exception.what : Exception → Bytes
  | .engineError message => message.takeWhile (· ≠ 0)
  | .other message => message.takeWhile (· ≠ 0)

/-- `nlohmann::json`; the fields of an object are in the order of their keys. -/
inductive Json (Num : Type)
  | null
  | boolean (value : Bool)
  | number (value : Num)
  | string (value : Bytes)
  | array (items : List (Json Num))
  | object (fields : List (Bytes × Json Num))

/-- The parser, and the conversions between numbers of the text and of the program. -/
structure JsonLibrary (Num K : Type) where
  /-- `json::parse`; `none` when it throws. -/
  parse : Bytes → Option (Json Num)
  toInt : Num → ℤ
  toFloat : Num → K
  ofInt : ℤ → Num
  ofFloat : K → Num

variable {Num K α : Type}

namespace Json

/-- `type_name`. -/
def typeName : Json Num → Bytes
  | .null => ascii "null"
  | .boolean _ => ascii "boolean"
  | .number _ => ascii "number"
  | .string _ => ascii "string"
  | .array _ => ascii "array"
  | .object _ => ascii "object"

/-- `json::type_error`. -/
def typeError (code : ℕ) (text : Bytes) : Exception :=
  .other (ascii "[json.exception.type_error." ++ decimal code ++ ascii "] " ++ text)

/-! ## Reading -/

/-- The field of an object with the given key; `contains` says whether there is one. -/
def get? (key : Bytes) : Json Num → Option (Json Num)
  | .object fields => (fields.find? fun field => field.1 = key).map Prod.snd
  | _ => none

/-- `value`: the field, converted, or a default. -/
def value (json : Json Num) (key : Bytes) (read : Json Num → Except Exception α) (default : α) :
    Except Exception α :=
  match json with
  | .object _ =>
      match json.get? key with
      | some field => read field
      | none => .ok default
  | _ => .error (typeError 306 (ascii "cannot use value() with " ++ json.typeName))

/-- `get<std::string>`. -/
def getString : Json Num → Except Exception Bytes
  | .string value => .ok value
  | json => .error (typeError 302 (ascii "type must be string, but is " ++ json.typeName))

/-- `get<bool>`. -/
def getBool : Json Num → Except Exception Bool
  | .boolean value => .ok value
  | json => .error (typeError 302 (ascii "type must be boolean, but is " ++ json.typeName))

/-- The conversion to an arithmetic type: from a number, or from a truth value. -/
def getNumber (convert : Num → α) (ofBool : Bool → α) : Json Num → Except Exception α
  | .number value => .ok (convert value)
  | .boolean value => .ok (ofBool value)
  | json => .error (typeError 302 (ascii "type must be number, but is " ++ json.typeName))

/-- `get<int>`. -/
def getInt (lib : JsonLibrary Num K) : Json Num → Except Exception ℤ :=
  getNumber lib.toInt fun value => if value then 1 else 0

/-- `get<float>`. -/
def getFloat [Field K] (lib : JsonLibrary Num K) : Json Num → Except Exception K :=
  getNumber lib.toFloat fun value => if value then 1 else 0

/-- `is_object`. -/
def IsObject : Json Num → Prop
  | .object _ => True
  | _ => False

/-- `is_string`. -/
def IsString : Json Num → Prop
  | .string _ => True
  | _ => False

/-- `is_boolean`. -/
def IsBoolean : Json Num → Prop
  | .boolean _ => True
  | _ => False

/-- A value that converts to a number. -/
def IsArithmetic : Json Num → Prop
  | .number _ => True
  | .boolean _ => True
  | _ => False

theorem isObject_of_get? {json field : Json Num} {key : Bytes} (hget : json.get? key = some field) :
    json.IsObject := by
  cases json <;> trivial

theorem getString_ok_iff {json : Json Num} : (∃ a, json.getString = .ok a) ↔ json.IsString := by
  cases json <;> simp [getString, IsString]

theorem getBool_ok_iff {json : Json Num} : (∃ a, json.getBool = .ok a) ↔ json.IsBoolean := by
  cases json <;> simp [getBool, IsBoolean]

theorem getNumber_ok_iff {convert : Num → α} {ofBool : Bool → α} {json : Json Num} :
    (∃ a, json.getNumber convert ofBool = .ok a) ↔ json.IsArithmetic := by
  cases json <;> simp [getNumber, IsArithmetic]

/-- `value` returns for an object whose field, if it is there, can be converted. -/
theorem value_ok_iff {json : Json Num} {key : Bytes} {read : Json Num → Except Exception α}
    {default : α} {P : Json Num → Prop} (hread : ∀ field, (∃ a, read field = .ok a) ↔ P field) :
    (∃ a, json.value key read default = .ok a) ↔
      json.IsObject ∧ ∀ field ∈ json.get? key, P field := by
  cases json with
  | object fields =>
      simp only [value, IsObject, true_and]
      cases hget : (Json.object fields).get? key with
      | none => simp
      | some field => simp [hread]
  | _ => simp [value, IsObject]

/-! ## Writing -/

/-- A hexadecimal digit. -/
def hexDigit (n : ℕ) : UInt8 := if n < 10 then (48 + n).toUInt8 else (55 + n).toUInt8

/-- `hex_bytes`. -/
def hexBytes (b : UInt8) : Bytes := [hexDigit (b.toNat / 16), hexDigit (b.toNat % 16)]

/-- The text of `type_error` 316. -/
def utf8Message : Utf8.Fault → Bytes
  | .invalidByte index byte =>
      ascii "invalid UTF-8 byte at index " ++ decimal index ++ ascii ": 0x" ++ hexBytes byte
  | .incomplete last => ascii "incomplete UTF-8 string; last byte: 0x" ++ hexBytes last

mutual

/-- The first string that `dump` cannot print. -/
def dumpFault : Json Num → Option Utf8.Fault
  | .string value => Utf8.fault value
  | .array items => dumpFaultItems items
  | .object fields => dumpFaultFields fields
  | _ => none

/-- The items of an array, from the first. -/
def dumpFaultItems : List (Json Num) → Option Utf8.Fault
  | [] => none
  | item :: items => (dumpFault item).or (dumpFaultItems items)

/-- The fields of an object, from the first; a key is printed before its value. -/
def dumpFaultFields : List (Bytes × Json Num) → Option Utf8.Fault
  | [] => none
  | (key, field) :: fields => ((Utf8.fault key).or (dumpFault field)).or (dumpFaultFields fields)

end

/-- What `dump` throws. -/
def dumpError (json : Json Num) : Option Exception :=
  json.dumpFault.map fun fault => typeError 316 (utf8Message fault)

/-- `dump` prints the value. -/
def Printable (json : Json Num) : Prop := json.dumpFault = none

theorem dumpError_eq_none_iff {json : Json Num} : json.dumpError = none ↔ json.Printable := by
  simp [dumpError, Printable]

@[simp] theorem printable_string {value : Bytes} :
    (Json.string value : Json Num).Printable ↔ Utf8.Valid value := by
  rw [Printable, dumpFault, Utf8.Valid]

@[simp] theorem printable_number (value : Num) : (Json.number value).Printable := by
  rw [Printable, dumpFault] <;> simp

@[simp] theorem printable_boolean (value : Bool) : (Json.boolean value : Json Num).Printable := by
  rw [Printable, dumpFault] <;> simp

@[simp] theorem printable_array_nil : (Json.array [] : Json Num).Printable := by
  rw [Printable, dumpFault, dumpFaultItems]

@[simp] theorem printable_array_cons {item : Json Num} {items : List (Json Num)} :
    (Json.array (item :: items)).Printable ↔ item.Printable ∧ (Json.array items).Printable := by
  simp only [Printable, dumpFault, dumpFaultItems, Option.or_eq_none_iff]

@[simp] theorem printable_object_nil : (Json.object [] : Json Num).Printable := by
  rw [Printable, dumpFault, dumpFaultFields]

@[simp] theorem printable_object_cons {key : Bytes} {field : Json Num}
    {fields : List (Bytes × Json Num)} :
    (Json.object ((key, field) :: fields)).Printable ↔
      Utf8.Valid key ∧ field.Printable ∧ (Json.object fields).Printable := by
  simp only [Printable, dumpFault, dumpFaultFields, Option.or_eq_none_iff, Utf8.Valid, and_assoc]

/-! ## The messages are ASCII -/

/-- A literal is ASCII if its characters are. -/
theorem ascii_ofList {text : List Char} (htext : text.all (·.toNat < 0x80)) :
    Utf8.Ascii (ascii (String.ofList text)) := by
  intro b hb
  rw [ascii, String.toList_ofList] at hb
  obtain ⟨c, hc, rfl⟩ := List.mem_map.mp hb
  have hlt := of_decide_eq_true (List.all_eq_true.mp htext c hc)
  simp only [chr, UInt8.lt_iff_toNat_lt, Nat.toUInt8_eq, UInt8.toNat_ofNat']
  exact (Nat.mod_le _ _).trans_lt hlt

theorem valid_ofList {text : List Char} (htext : text.all (·.toNat < 0x80)) :
    Utf8.Valid (ascii (String.ofList text)) :=
  (ascii_ofList htext).valid

theorem ascii_hexBytes (b : UInt8) : Utf8.Ascii (hexBytes b) := by
  have hdigit : ∀ n < 16, hexDigit n < 0x80 := by decide
  have hlt := b.toNat_lt
  intro c hc
  simp only [hexBytes, List.mem_cons, List.not_mem_nil, or_false] at hc
  rcases hc with rfl | rfl
  · exact hdigit _ (by omega)
  · exact hdigit _ (Nat.mod_lt _ (by decide))

theorem ascii_decimal (n : ℕ) : Utf8.Ascii (decimal n) := by
  intro b hb
  have hdigit := isDigit_of_mem_decimal hb
  simp only [isDigit, Bool.and_eq_true, decide_eq_true_eq] at hdigit
  exact UInt8.lt_of_le_of_lt hdigit.2 (by decide)

theorem ascii_utf8Message (fault : Utf8.Fault) : Utf8.Ascii (utf8Message fault) := by
  cases fault with
  | invalidByte index byte =>
      have htext : Utf8.Ascii (ascii "invalid UTF-8 byte at index ") := ascii_ofList (by decide)
      have hcolon : Utf8.Ascii (ascii ": 0x") := ascii_ofList (by decide)
      exact ((htext.append (ascii_decimal index)).append hcolon).append (ascii_hexBytes byte)
  | incomplete last =>
      have htext : Utf8.Ascii (ascii "incomplete UTF-8 string; last byte: 0x") :=
        ascii_ofList (by decide)
      exact htext.append (ascii_hexBytes last)

/-- What `dump` throws can itself be printed. -/
theorem valid_what_of_dumpError {json : Json Num} {e : Exception} (he : json.dumpError = some e) :
    Utf8.Valid e.what := by
  obtain ⟨fault, -, rfl⟩ := Option.map_eq_some_iff.mp he
  have hname : Utf8.Ascii (ascii "[json.exception.type_error.") := ascii_ofList (by decide)
  have hclose : Utf8.Ascii (ascii "] ") := ascii_ofList (by decide)
  have hascii := ((hname.append (ascii_decimal 316)).append hclose).append (ascii_utf8Message fault)
  rw [typeError, Exception.what]
  exact Utf8.Ascii.valid fun b hb => hascii b ((List.takeWhile_prefix _).subset hb)

end Json

end Reame.Server
