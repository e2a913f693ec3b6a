import Reame.Utils.ConfigText

/-!
# Reading values

A value is converted when it is asked for.  `get_int` takes a `Numeral` that fits into 64 bits,
and nothing else (`getInt_eq_ok_iff`): `std::stoll` may leave something unread, and that is
checked.  Whatever a getter objects to, its message names the key (`names_key`).

Settings that were saved are read back (`read_saved`), and a key that was not saved has the
default that it is asked for with.
-/

namespace Reame.Utils

open Wire

/-! ## Integers -/

/-- An integer, written down: blanks, a sign or none, and digits. -/
structure Numeral where
  blanks : Bytes
  sign : Bytes
  digits : Bytes
  blanksOk : ∀ b ∈ blanks, isSpace b = true
  signOk : sign = [] ∨ sign = [43] ∨ sign = [45]
  ne_nil : digits ≠ []
  digitsOk : ∀ b ∈ digits, isDigit b = true

namespace Numeral

variable (n : Numeral)

def text : Bytes := n.blanks ++ (n.sign ++ n.digits)

def value : ℤ := if n.sign = [45] then -digitsValue n.digits else digitsValue n.digits

/-- Behind the blanks there is something else. -/
theorem dropWhile_text : n.text.dropWhile isSpace = n.sign ++ n.digits := by
  rw [text, List.dropWhile_append_of_pos n.blanksOk]
  refine TextLines.dropWhile_of_head fun b hb => ?_
  rcases n.signOk with hsign | hsign | hsign
  · rw [hsign, List.nil_append] at hb
    exact isSpace_of_isDigit (n.digitsOk b (List.mem_of_mem_head? hb))
  · rw [hsign] at hb
    cases hb
    rfl
  · rw [hsign] at hb
    cases hb
    rfl

theorem head?_digits {b : UInt8} (hb : isDigit b = false) : n.digits.head? ≠ some b := by
  intro hhead
  have hdigit := n.digitsOk b (List.mem_of_mem_head? hhead)
  rw [hb] at hdigit
  cases hdigit

theorem takeWhile_digits : n.digits.takeWhile isDigit = n.digits :=
  List.takeWhile_eq_self_iff.mpr n.digitsOk

/-- `std::stoll` reads a numeral to its end. -/
theorem stol_text :
    stol n.text =
        (if -2 ^ 63 ≤ n.value ∧ n.value < 2 ^ 63 then .ok n.value else .error .outOfRange) ∧
      Config.stollEnd n.text = n.text.length := by
  have hlength : n.text.length = n.blanks.length + (n.sign.length + n.digits.length) := by
    rw [text, List.length_append, List.length_append]
  have hminus := n.head?_digits (b := 45) rfl
  have hplus := n.head?_digits (b := 43) rfl
  unfold stol Config.stollEnd value
  rw [n.dropWhile_text, hlength]
  rcases n.signOk with hsign | hsign | hsign <;>
    simp [hsign, hminus, hplus, n.takeWhile_digits, n.ne_nil] <;> omega

/-- What is read to its end is a numeral. -/
theorem exists_of_stol {raw : Bytes} {v : ℤ} (hread : stol raw = .ok v)
    (hend : Config.stollEnd raw = raw.length) : ∃ n : Numeral, n.text = raw := by
  have hblanks : ∀ b ∈ raw.takeWhile isSpace, isSpace b = true := fun b hb =>
    List.mem_takeWhile_imp hb
  have hraw : raw.takeWhile isSpace ++ raw.dropWhile isSpace = raw :=
    List.takeWhile_append_dropWhile
  have hlength := congrArg List.length hraw
  rw [List.length_append] at hlength
  unfold stol at hread
  unfold Config.stollEnd at hend
  generalize raw.dropWhile isSpace = rest at hread hend hraw hlength
  dsimp only at hread hend
  by_cases hsign : rest.head? = some 45 ∨ rest.head? = some 43
  · -- There is a sign, and digits up to the end behind it.
    rw [if_pos hsign] at hread
    rw [if_pos hsign, if_pos hsign] at hend
    cases rest with
    | nil => simp at hsign
    | cons b body =>
        have hall : body.takeWhile isDigit = body := by
          refine (List.takeWhile_prefix isDigit).eq_of_length ?_
          simp only [List.drop_succ_cons, List.drop_zero, List.length_cons] at hend hlength
          omega
        have hne : body ≠ [] := by
          rintro rfl
          simp at hread
        refine ⟨⟨raw.takeWhile isSpace, [b], body, hblanks, ?_, hne,
          List.takeWhile_eq_self_iff.mp hall⟩, hraw⟩
        simpa [or_comm] using hsign
  · rw [if_neg hsign] at hread
    rw [if_neg hsign, if_neg hsign] at hend
    have hall : rest.takeWhile isDigit = rest := by
      refine (List.takeWhile_prefix isDigit).eq_of_length ?_
      omega
    have hne : rest ≠ [] := by
      rintro rfl
      simp at hread
    exact ⟨⟨raw.takeWhile isSpace, [], rest, hblanks, .inl rfl, hne,
      List.takeWhile_eq_self_iff.mp hall⟩, hraw⟩

end Numeral

namespace Config

variable {cfg : Config} {key : Bytes}

theorem getString_of_lookup {value : Bytes} (hvalue : cfg.values.lookup key = some value) :
    cfg.getString key = .ok value := by
  rw [getString, hvalue]

/-- What `get_int` throws when it cannot convert a value. -/
def notInteger (key raw : Bytes) : ConfigError :=
  ⟨ascii "key '" ++ key ++ ascii "' is not an integer: '" ++ raw ++ ascii "'", 0⟩

theorem getInt_of_lookup {raw : Bytes} (hraw : cfg.values.lookup key = some raw) :
    cfg.getInt key =
      match stol raw with
      | .error _ => .error (notInteger key raw)
      | .ok v => if stollEnd raw ≠ raw.length then .error (notInteger key raw) else .ok v := by
  rw [getInt, getString_of_lookup hraw]
  rfl

/-- `get_int` takes the numerals of 64-bit integers, and gives their values. -/
theorem getInt_eq_ok_iff {v : ℤ} :
    cfg.getInt key = .ok v ↔
      ∃ n : Numeral, cfg.values.lookup key = some n.text ∧ n.value = v ∧
        -2 ^ 63 ≤ v ∧ v < 2 ^ 63 := by
  constructor
  · intro hget
    cases hraw : cfg.values.lookup key with
    | none =>
        rw [getInt, getString, hraw] at hget
        cases hget
    | some raw =>
        rw [getInt_of_lookup hraw] at hget
        cases hread : stol raw with
        | error fault =>
            rw [hread] at hget
            cases hget
        | ok read =>
            rw [hread] at hget
            dsimp only at hget
            split_ifs at hget with hend
            cases hget
            obtain ⟨n, rfl⟩ := Numeral.exists_of_stol hread (not_not.mp hend)
            rw [n.stol_text.1] at hread
            split_ifs at hread with hrange
            cases hread
            exact ⟨n, rfl, rfl, hrange⟩
  · rintro ⟨n, hlookup, rfl, hrange⟩
    obtain ⟨hstol, hend⟩ := n.stol_text
    rw [if_pos hrange] at hstol
    rw [getInt_of_lookup hlookup, hstol]
    exact if_neg (not_not.mpr hend)

/-! ## Errors -/

/-- Every error of a getter names the key, and no line. -/
theorem names_key {e : ConfigError}
    (herror : cfg.getString key = .error e ∨ cfg.getInt key = .error e ∨
      cfg.getBool key = .error e) : key <:+: e.what ∧ e.line = 0 := by
  cases hraw : cfg.values.lookup key with
  | none =>
      have hmissing : cfg.getString key = .error ⟨ascii "missing config key: " ++ key, 0⟩ := by
        rw [getString, hraw]
      have he : e = ⟨ascii "missing config key: " ++ key, 0⟩ := by
        rw [getInt, getBool, hmissing] at herror
        rcases herror with h | h | h <;> cases h <;> rfl
      rw [he]
      exact ⟨(List.suffix_append _ key).isInfix, rfl⟩
  | some raw =>
      have hquoted : ∀ before after : Bytes, key <:+: before ++ key ++ after := fun before after =>
        ⟨before, after, rfl⟩
      rcases herror with hstring | hint | hbool
      · rw [getString_of_lookup hraw] at hstring
        cases hstring
      · rw [getInt_of_lookup hraw] at hint
        have he : e = notInteger key raw := by
          split at hint
          · cases hint
            rfl
          · split_ifs at hint
            cases hint
            rfl
        rw [he, notInteger, List.append_assoc (_ ++ key), List.append_assoc (_ ++ key)]
        exact ⟨hquoted _ _, rfl⟩
      · rw [getBool, getString_of_lookup hraw] at hbool
        simp only [bind, Except.bind] at hbool
        split_ifs at hbool
        · cases hbool
        · cases hbool
        · cases hbool
          rw [List.append_assoc (_ ++ key), List.append_assoc (_ ++ key)]
          exact ⟨hquoted _ _, rfl⟩

/-! ## Saved settings -/

/-- The keys of what was inserted. -/
theorem keys_insertAll (values : Finmap fun _ : Bytes => Bytes) (settings : List Setting) :
    (insertAll values settings).keys = values.keys ∪ (settings.map Setting.name).toFinset := by
  induction settings generalizing values with
  | nil => simp [insertAll]
  | cons s settings ih =>
      have hcons : insertAll values (s :: settings) =
          insertAll (values.insert s.name s.value) settings := rfl
      rw [hcons, ih, List.map_cons, List.toFinset_cons]
      ext key
      simp only [Finset.mem_union, Finset.mem_insert, Finmap.mem_keys, Finmap.mem_insert]
      tauto

/-- A getter with a default converts the value that is there. -/
theorem getOr_of_lookup {α : Type} {get : Config → Bytes → Except ConfigError α} {value : Bytes}
    (hvalue : cfg.values.lookup key = some value) (default : α) :
    cfg.getOr key get default = get cfg key := by
  rw [getOr, has, hvalue, Option.isSome_some, if_pos rfl]

theorem getOr_of_notMem {α : Type} {get : Config → Bytes → Except ConfigError α}
    (hnone : key ∉ cfg.values.keys) (default : α) : cfg.getOr key get default = .ok default := by
  rw [getOr, has, Finmap.lookup_eq_none.mpr (Finmap.mem_keys.not.mp hnone), Option.isSome_none,
    if_neg Bool.false_ne_true]

/-- Settings with different names are read back one by one, and nothing else is. -/
theorem read_saved {settings : List Setting} (hnodup : (settings.map Setting.name).Nodup) :
    ∃ cfg, Config.parse (save settings) = .ok cfg ∧ cfg.size = settings.length ∧
      (∀ s ∈ settings, ∀ default, cfg.getStringOr s.name default = .ok s.value) ∧
      (∀ s ∈ settings, ∀ n : Numeral, s.value = n.text → -2 ^ 63 ≤ n.value → n.value < 2 ^ 63 →
        ∀ default, cfg.getIntOr s.name default = .ok n.value) ∧
      ∀ {α : Type} (get : Config → Bytes → Except ConfigError α) (key : Bytes) (default : α),
        key ∉ settings.map Setting.name → cfg.getOr key get default = .ok default := by
  have hperm := (arranged_perm settings).map Setting.name
  have hnodup' : ((arranged settings).map Setting.name).Nodup := hperm.nodup_iff.mpr hnodup
  obtain ⟨cfg, hvalues⟩ : ∃ cfg : Config, cfg.values = insertAll ∅ (arranged settings) :=
    ⟨⟨_⟩, rfl⟩
  have hkeys : cfg.values.keys = (settings.map Setting.name).toFinset := by
    rw [hvalues, keys_insertAll, Finmap.keys_empty, Finset.empty_union]
    exact List.toFinset_eq_of_perm _ _ hperm
  have hlookup : ∀ s ∈ settings, cfg.values.lookup s.name = some s.value := fun s hs => by
    rw [hvalues, lookup_insertAll hnodup']
    exact .inl ⟨s, (arranged_perm settings).mem_iff.mpr hs, rfl, rfl⟩
  refine ⟨cfg, ?_, ?_, fun s hs default => ?_, fun s hs n hvalue hlow hhigh default => ?_,
    fun get key default hkey => getOr_of_notMem ?_ default⟩
  · rw [parse_save_arranged, ← hvalues]
  · rw [size, hkeys, List.toFinset_card_of_nodup hnodup, List.length_map]
  · rw [getStringOr, getOr_of_lookup (hlookup s hs), getString_of_lookup (hlookup s hs)]
  · rw [getIntOr, getOr_of_lookup (hlookup s hs), getInt_eq_ok_iff]
    exact ⟨n, hvalue ▸ hlookup s hs, rfl, hlow, hhigh⟩
  · rw [hkeys, List.mem_toFinset]
    exact hkey

end Config

end Reame.Utils
