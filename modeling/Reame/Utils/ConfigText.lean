import Reame.Utils.Config

/-!
# Writing configuration files

What a line may say is limited: names, keys and values have no blanks at their ends and no
line break in them, a key has no `=` in it and does not begin like a comment or a header, and
there is no header with an empty name.  `Setting` carries these limits, so that every list of
settings can be written (`save`) and is read back (`parse_save_arranged`).

Two things limit what a writer can do with a map that it is given.  A key without a dot can
only stand before the first header (`arranged`), and a key with one can be cut at any of its
dots, or at none.  The maps that a text can stand for are exactly those each of whose entries
is a setting (`parse_range`): whatever a text says can be written in the form of `save`.
-/

namespace Reame.Utils

open TextLines

/-! ## The parts of a line -/

/-- The name of a section. -/
structure IsName (name : Bytes) : Prop where
  ne_nil : name ≠ []
  stripped : Stripped isBlank name
  oneLine : (10 : UInt8) ∉ name

/-- The key of an assignment. -/
structure IsKey (key : Bytes) : Prop where
  ne_nil : key ≠ []
  stripped : Stripped isBlank key
  oneLine : (10 : UInt8) ∉ key
  noSeparator : chr '=' ∉ key
  start : key.head? ≠ some (chr '#') ∧ key.head? ≠ some (chr ';') ∧ key.head? ≠ some (chr '[')

/-- The value of an assignment. -/
structure IsValue (value : Bytes) : Prop where
  stripped : Stripped isBlank value
  oneLine : (10 : UInt8) ∉ value

/-- A line whose parts are as they have to be. -/
def Line.WellFormed : Line → Prop
  | .ignored => True
  | .header name => IsName name
  | .assign key value => IsKey key ∧ IsValue value

/-- What a line says, written down. -/
def Line.print : Line → Bytes
  | .ignored => []
  | .header name => chr '[' :: (name ++ [chr ']'])
  | .assign key value => key ++ chr '=' :: value

theorem oneLine_trim {text line : Bytes} (hline : (10 : UInt8) ∉ line)
    (htext : ∀ b ∈ text, b ∈ trim line) : (10 : UInt8) ∉ trim text :=
  fun hmem => hline (mem_of_mem_strip (htext 10 (mem_of_mem_strip hmem)))

/-- What is accepted is well formed. -/
theorem wellFormed_of_classify {line : Bytes} {said : Line} (hline : (10 : UInt8) ∉ line)
    (hsaid : classify line = .ok said) : said.WellFormed := by
  have ht : Stripped isBlank (trim line) := stripped_strip isBlank line
  unfold classify at hsaid
  dsimp only at hsaid
  by_cases hignored : trim line = [] ∨ (trim line).head? = some (chr '#') ∨
      (trim line).head? = some (chr ';')
  · rw [if_pos hignored] at hsaid
    cases hsaid
    trivial
  rw [if_neg hignored] at hsaid
  by_cases hheader : (trim line).head? = some (chr '[')
  · rw [if_pos hheader] at hsaid
    split_ifs at hsaid with hend hempty
    cases hsaid
    refine ⟨hempty, stripped_strip isBlank _, oneLine_trim hline fun b hb => ?_⟩
    exact List.mem_of_mem_drop (List.mem_of_mem_take hb)
  rw [if_neg hheader] at hsaid
  cases hcut : cut (chr '=') (trim line) with
  | none =>
      rw [hcut] at hsaid
      cases hsaid
  | some sides =>
      rw [hcut] at hsaid
      dsimp only at hsaid
      split_ifs at hsaid with hempty
      cases hsaid
      obtain ⟨left, right⟩ := sides
      obtain ⟨hleft, hsides⟩ := cut_eq_some_iff.mp hcut
      have hmemLeft : ∀ b ∈ left, b ∈ trim line := fun b hb => by
        rw [hsides]
        exact List.mem_append_left _ hb
      have hmemRight : ∀ b ∈ right, b ∈ trim line := fun b hb => by
        rw [hsides]
        exact List.mem_append_right _ (List.mem_cons_of_mem _ hb)
      -- The key begins where the line does.
      have hne : left ≠ [] := by
        rintro rfl
        exact hempty rfl
      have hhead : left.head? = (trim line).head? := by
        rw [hsides, List.head?_append_of_ne_nil left hne]
      have hstart : (trim left).head? = (trim line).head? := by
        rw [← hhead]
        exact head?_strip (by rw [hhead]; exact ht.head) hempty
      refine ⟨⟨hempty, stripped_strip isBlank left, oneLine_trim hline hmemLeft,
        fun hmem => hleft (mem_of_mem_strip hmem), ?_⟩,
        stripped_strip isBlank right, oneLine_trim hline hmemRight⟩
      rw [hstart]
      exact ⟨fun h => hignored (Or.inr (Or.inl h)), fun h => hignored (Or.inr (Or.inr h)), hheader⟩

/-- What is well formed and written down is accepted, and says the same. -/
theorem classify_print {said : Line} (hsaid : said.WellFormed) :
    classify said.print = .ok said := by
  cases said with
  | ignored => rfl
  | header name =>
      have hprint : (Line.header name).print = chr '[' :: (name ++ [chr ']']) := rfl
      have ht : trim (chr '[' :: (name ++ [chr ']'])) = chr '[' :: (name ++ [chr ']']) := by
        refine strip_of_stripped ⟨fun b hb => ?_, fun b hb => ?_⟩
        · cases hb
          rfl
        · rw [← List.cons_append, List.getLast?_concat] at hb
          cases hb
          rfl
      have hlast : (chr '[' :: (name ++ [chr ']'])).getLast? = some (chr ']') := by
        rw [← List.cons_append, List.getLast?_concat]
      have hinner : ((chr '[' :: (name ++ [chr ']'])).drop 1).take
          ((chr '[' :: (name ++ [chr ']'])).length - 2) = name := by
        rw [List.drop_succ_cons, List.drop_zero, List.length_cons, List.length_append,
          List.length_singleton]
        exact List.take_left
      have hname : trim name = name := strip_of_stripped hsaid.stripped
      have hignored : ¬ (chr '[' :: (name ++ [chr ']']) = [] ∨
          (chr '[' :: (name ++ [chr ']'])).head? = some (chr '#') ∨
            (chr '[' :: (name ++ [chr ']'])).head? = some (chr ';')) := by
        rw [List.head?_cons]
        exact not_or.mpr ⟨List.cons_ne_nil _ _, by decide⟩
      unfold classify
      simp only [hprint, ht]
      rw [if_neg hignored, if_pos List.head?_cons, hlast, hinner, hname, if_neg (not_not.mpr rfl),
        if_neg hsaid.ne_nil]
  | assign key value =>
      obtain ⟨hkey, hvalue⟩ := hsaid
      have hhead : (key ++ chr '=' :: value).head? = key.head? :=
        List.head?_append_of_ne_nil key hkey.ne_nil
      have ht : trim (key ++ chr '=' :: value) = key ++ chr '=' :: value := by
        refine strip_of_stripped ⟨?_, fun b hb => ?_⟩
        · rw [hhead]
          exact hkey.stripped.head
        · rw [List.getLast?_append, List.getLast?_cons] at hb
          cases hlast : value.getLast? with
          | none =>
              rw [hlast] at hb
              cases hb
              rfl
          | some last =>
              rw [hlast] at hb
              cases hb
              exact hvalue.stripped.last _ hlast
      have hignored : ¬ (key ++ chr '=' :: value = [] ∨
          (key ++ chr '=' :: value).head? = some (chr '#') ∨
            (key ++ chr '=' :: value).head? = some (chr ';')) := by
        rw [hhead]
        exact not_or.mpr ⟨List.append_ne_nil_of_left_ne_nil hkey.ne_nil _,
          not_or.mpr ⟨hkey.start.1, hkey.start.2.1⟩⟩
      have hheader : ¬ (key ++ chr '=' :: value).head? = some (chr '[') := by
        rw [hhead]
        exact hkey.start.2.2
      have hprint : (Line.assign key value).print = key ++ chr '=' :: value := rfl
      unfold classify
      simp only [hprint, ht, cut_append hkey.noSeparator]
      have hleft : trim key = key := strip_of_stripped hkey.stripped
      have hright : trim value = value := strip_of_stripped hvalue.stripped
      rw [if_neg hignored, if_neg hheader, hleft, hright, if_neg hkey.ne_nil]

theorem oneLine_print {said : Line} (hsaid : said.WellFormed) : (10 : UInt8) ∉ said.print := by
  cases said with
  | ignored => exact List.not_mem_nil
  | header name =>
      intro hmem
      rcases List.mem_cons.mp hmem with hopen | hrest
      · exact absurd hopen (by decide)
      rcases List.mem_append.mp hrest with hname | hclose
      · exact hsaid.oneLine hname
      · exact absurd hclose (by decide)
  | assign key value =>
      intro hmem
      rcases List.mem_append.mp hmem with hkey | hrest
      · exact hsaid.1.oneLine hkey
      rcases List.mem_cons.mp hrest with hequals | hvalue
      · exact absurd hequals (by decide)
      · exact hsaid.2.oneLine hvalue

/-- A document, written down. -/
def print (doc : List Line) : Bytes := unlines 10 (doc.map Line.print)

theorem parse_print {doc : List Line} (hdoc : ∀ said ∈ doc, said.WellFormed) :
    Config.parse (print doc) = .ok (meaning doc) := by
  refine parse_of_classify ?_
  rw [print, lines_unlines, List.map_map]
  · exact List.map_congr_left fun said hsaid => classify_print (hdoc said hsaid)
  · intro line hline
    obtain ⟨said, hsaid, rfl⟩ := List.mem_map.mp hline
    exact oneLine_print (hdoc said hsaid)

/-- What is read is the meaning of a document. -/
theorem exists_of_parse {text : Bytes} {cfg : Config} (hparse : Config.parse text = .ok cfg) :
    ∃ doc : List Line, (∀ said ∈ doc, said.WellFormed) ∧ cfg = meaning doc := by
  rcases exists_doc (lines 10 text) with ⟨doc, hdoc⟩ |
    ⟨before, line, after, doc, what, htext, hdoc, hline⟩
  · rw [parse_of_classify hdoc] at hparse
    cases hparse
    refine ⟨doc, fun said hsaid => ?_, rfl⟩
    have hmem : (.ok said : Except Bytes Line) ∈ (lines 10 text).map classify := by
      rw [hdoc]
      exact List.mem_map_of_mem hsaid
    obtain ⟨line, hline, hclassify⟩ := List.mem_map.mp hmem
    exact wellFormed_of_classify (notMem_of_mem_lines hline) hclassify
  · rw [parse_of_bad htext hdoc hline] at hparse
    cases hparse

/-! ## Settings -/

/-- An assignment that can be written, with the section it stands in; no section is the empty
one. -/
structure Setting where
  sectionName : Bytes
  key : Bytes
  value : Bytes
  sectionOk : sectionName = [] ∨ IsName sectionName
  keyOk : IsKey key
  valueOk : IsValue value

/-- Insert the values of settings, from the first. -/
def insertAll (values : Finmap fun _ : Bytes => Bytes) (settings : List Setting) :
    Finmap fun _ : Bytes => Bytes :=
  settings.foldl (fun values s => values.insert (fullKey s.sectionName s.key) s.value) values

namespace Setting

/-- The key of a setting in the map. -/
def name (s : Setting) : Bytes := fullKey s.sectionName s.key

/-- The lines that say a setting. -/
def doc (s : Setting) : List Line :=
  if s.sectionName = [] then [.assign s.key s.value]
  else [.header s.sectionName, .assign s.key s.value]

theorem wellFormed_doc {s : Setting} {said : Line} (hsaid : said ∈ s.doc) : said.WellFormed := by
  unfold doc at hsaid
  split_ifs at hsaid with htop
  · rw [List.mem_singleton.mp hsaid]
    exact ⟨s.keyOk, s.valueOk⟩
  · rcases List.mem_cons.mp hsaid with rfl | hassign
    · exact s.sectionOk.resolve_left htop
    · rw [List.mem_singleton.mp hassign]
      exact ⟨s.keyOk, s.valueOk⟩

/-- A setting without a section is only understood before the first header. -/
theorem foldl_doc (s : Setting) {state : Parsing}
    (hstate : s.sectionName = [] → state.sectionName = []) :
    (s.doc.foldl Parsing.read state).cfg = ⟨state.cfg.values.insert s.name s.value⟩ ∧
      (s.doc.foldl Parsing.read state).sectionName = s.sectionName := by
  unfold doc name
  split_ifs with htop
  · rw [List.foldl_cons, List.foldl_nil, Parsing.read, hstate htop, htop]
    exact ⟨rfl, rfl⟩
  · exact ⟨rfl, rfl⟩

end Setting

/-- Settings of which those without a section come first. -/
theorem foldl_docs {settings : List Setting} {state : Parsing}
    (hfirst : (∀ s ∈ settings, s.sectionName ≠ []) ∨
      state.sectionName = [] ∧ ∀ s ∈ settings, s.sectionName = []) :
    ((settings.flatMap Setting.doc).foldl Parsing.read state).cfg =
        ⟨insertAll state.cfg.values settings⟩ ∧
      (state.sectionName = [] → (∀ s ∈ settings, s.sectionName = []) →
        ((settings.flatMap Setting.doc).foldl Parsing.read state).sectionName = []) := by
  induction settings generalizing state with
  | nil => exact ⟨rfl, fun hstate _ => hstate⟩
  | cons s settings ih =>
      have hstate : s.sectionName = [] → state.sectionName = [] := by
        intro htop
        rcases hfirst with hsections | ⟨hstate, -⟩
        · exact absurd htop (hsections s (List.mem_cons_self ..))
        · exact hstate
      obtain ⟨hcfg, hname⟩ := s.foldl_doc hstate
      have hrest : (∀ later ∈ settings, later.sectionName ≠ []) ∨
          (s.doc.foldl Parsing.read state).sectionName = [] ∧
            ∀ later ∈ settings, later.sectionName = [] := by
        rcases hfirst with hsections | ⟨-, htops⟩
        · exact Or.inl fun later hlater => hsections later (List.mem_cons_of_mem _ hlater)
        · refine Or.inr ⟨?_, fun later hlater => htops later (List.mem_cons_of_mem _ hlater)⟩
          rw [hname]
          exact htops s (List.mem_cons_self ..)
      obtain ⟨hall, hlast⟩ := ih hrest
      rw [List.flatMap_cons, List.foldl_append]
      refine ⟨?_, fun _ htops => hlast ?_ fun later hlater =>
        htops later (List.mem_cons_of_mem _ hlater)⟩
      · rw [hall, hcfg]
        rfl
      · rw [hname]
        exact htops s (List.mem_cons_self ..)

/-- Settings in the order in which they can be written: first those without a section. -/
def arranged (settings : List Setting) : List Setting :=
  settings.filter (fun s => decide (s.sectionName = [])) ++
    settings.filter fun s => !decide (s.sectionName = [])

theorem arranged_perm (settings : List Setting) : (arranged settings).Perm settings :=
  List.filter_append_perm _ settings

/-- The text of settings. -/
def save (settings : List Setting) : Bytes := print ((arranged settings).flatMap Setting.doc)

theorem parse_save_arranged (settings : List Setting) :
    Config.parse (save settings) = .ok ⟨insertAll ∅ (arranged settings)⟩ := by
  have hwf : ∀ said ∈ (arranged settings).flatMap Setting.doc, said.WellFormed := by
    intro said hsaid
    obtain ⟨s, -, hdoc⟩ := List.mem_flatMap.mp hsaid
    exact Setting.wellFormed_doc hdoc
  have htops : ∀ s ∈ settings.filter (fun s => decide (s.sectionName = [])),
      s.sectionName = [] := by
    intro s hs
    exact of_decide_eq_true (List.mem_filter.mp hs).2
  have hsections : ∀ s ∈ settings.filter (fun s => !decide (s.sectionName = [])),
      s.sectionName ≠ [] := by
    intro s hs
    simpa using (List.mem_filter.mp hs).2
  rw [save, parse_print hwf]
  refine congrArg Except.ok ?_
  obtain ⟨hcfg, -⟩ := @foldl_docs _ Parsing.initial (Or.inr ⟨rfl, htops⟩)
  have hall : ∀ state : Parsing, (((settings.filter fun s => !decide (s.sectionName = [])).flatMap
      Setting.doc).foldl Parsing.read state).cfg = ⟨insertAll state.cfg.values
        (settings.filter fun s => !decide (s.sectionName = []))⟩ :=
    fun state => (foldl_docs (Or.inl hsections)).1
  rw [meaning, arranged, List.flatMap_append, List.foldl_append, hall, hcfg, insertAll, insertAll,
    insertAll, List.foldl_append]
  rfl

theorem lookup_insertAll {settings : List Setting}
    (hnodup : (settings.map Setting.name).Nodup) (values : Finmap fun _ : Bytes => Bytes)
    (key value : Bytes) :
    (insertAll values settings).lookup key = some value ↔
      (∃ s ∈ settings, s.name = key ∧ s.value = value) ∨
        values.lookup key = some value ∧ ∀ s ∈ settings, s.name ≠ key := by
  induction settings generalizing values with
  | nil => simp [insertAll]
  | cons s settings ih =>
      rw [List.map_cons, List.nodup_cons] at hnodup
      have hcons : insertAll values (s :: settings) =
          insertAll (values.insert s.name s.value) settings := rfl
      rw [hcons, ih hnodup.2]
      by_cases hkey : s.name = key
      · have hlater : ∀ later ∈ settings, later.name ≠ key := by
          intro later hlater heq
          exact hnodup.1 (List.mem_map.mpr ⟨later, hlater, heq.trans hkey.symm⟩)
        rw [← hkey, Finmap.lookup_insert, Option.some.injEq]
        rw [← hkey] at hlater
        constructor
        · rintro (⟨later, hmem, heq, -⟩ | ⟨hvalue, -⟩)
          · exact absurd heq (hlater later hmem)
          · exact Or.inl ⟨s, List.mem_cons_self .., rfl, hvalue⟩
        · rintro (⟨found, hmem, heq, hvalue⟩ | ⟨-, hnone⟩)
          · rcases List.mem_cons.mp hmem with rfl | hrest
            · exact Or.inr ⟨hvalue, hlater⟩
            · exact absurd heq (hlater found hrest)
          · exact absurd rfl (hnone s (List.mem_cons_self ..))
      · rw [Finmap.lookup_insert_of_ne _ (Ne.symm hkey)]
        simp only [List.mem_cons, exists_eq_or_imp, forall_eq_or_imp, hkey, false_and, false_or,
          ne_eq, not_false_eq_true, true_and]

/-! ## What a text can stand for -/

/-- A key that some text assigns: one without a section, or one in a section. -/
def Assignable (key : Bytes) : Prop :=
  IsKey key ∨ ∃ sectionName last, IsName sectionName ∧ IsKey last ∧
    key = sectionName ++ ascii "." ++ last

theorem exists_setting_iff {key value : Bytes} :
    (∃ s : Setting, s.name = key ∧ s.value = value) ↔ Assignable key ∧ IsValue value := by
  constructor
  · rintro ⟨s, rfl, rfl⟩
    refine ⟨?_, s.valueOk⟩
    unfold Setting.name fullKey
    split_ifs with htop
    · exact Or.inl s.keyOk
    · exact Or.inr ⟨s.sectionName, s.key, s.sectionOk.resolve_left htop, s.keyOk, rfl⟩
  · rintro ⟨hkey | ⟨sectionName, last, hname, hlast, rfl⟩, hvalue⟩
    · exact ⟨⟨[], key, value, Or.inl rfl, hkey, hvalue⟩, rfl, rfl⟩
    · exact ⟨⟨sectionName, last, value, Or.inr hname, hlast, hvalue⟩, if_neg hname.ne_nil, rfl⟩

/-- What reading keeps: the entries can be written, and so can the name of the section. -/
def Parsing.Writable (s : Parsing) : Prop :=
  (s.sectionName = [] ∨ IsName s.sectionName) ∧
    ∀ key value, s.cfg.values.lookup key = some value → Assignable key ∧ IsValue value

theorem Parsing.Writable.read {s : Parsing} (hs : s.Writable) {said : Line}
    (hsaid : said.WellFormed) : (s.read said).Writable := by
  cases said with
  | ignored => exact hs
  | header name => exact ⟨Or.inr hsaid, hs.2⟩
  | assign key value =>
      refine ⟨hs.1, fun other found hfound => ?_⟩
      by_cases hkey : other = fullKey s.sectionName key
      · have hlookup : (s.read (.assign key value)).cfg.values.lookup other = some value := by
          rw [hkey]
          exact Finmap.lookup_insert _
        rw [hlookup, Option.some.injEq] at hfound
        exact exists_setting_iff.mp
          ⟨⟨s.sectionName, key, value, hs.1, hsaid.1, hsaid.2⟩, hkey.symm, hfound⟩
      · refine hs.2 other found ?_
        rw [← hfound]
        exact (Finmap.lookup_insert_of_ne _ hkey).symm

theorem writable_foldl {doc : List Line} (hdoc : ∀ said ∈ doc, said.WellFormed) {s : Parsing}
    (hs : s.Writable) : (doc.foldl Parsing.read s).Writable := by
  induction doc generalizing s with
  | nil => exact hs
  | cons said doc ih =>
      exact ih (fun later hlater => hdoc later (List.mem_cons_of_mem _ hlater))
        (hs.read (hdoc said (List.mem_cons_self ..)))

/-- A map is what some text stands for exactly if each of its entries can be written; the
text is that of `save`. -/
theorem parse_range (cfg : Config) :
    (∃ text, Config.parse text = .ok cfg) ↔
      ∀ key value, cfg.values.lookup key = some value → Assignable key ∧ IsValue value := by
  constructor
  · intro htext
    obtain ⟨text, hparse⟩ := htext
    obtain ⟨doc, hdoc, rfl⟩ := exists_of_parse hparse
    have hinitial : Parsing.initial.Writable :=
      ⟨Or.inl rfl, fun key value hlookup => by cases hlookup⟩
    exact (writable_foldl hdoc hinitial).2
  · intro hentries
    obtain ⟨values⟩ := cfg
    induction values using Finmap.induction_on with
    | H entries =>
      -- A setting for each of the entries.
      have hsettings : entries.entries ∈ Set.range
          (List.map fun s : Setting => (⟨s.name, s.value⟩ : Σ _ : Bytes, Bytes)) := by
        rw [Set.range_list_map]
        rintro ⟨key, value⟩ hentry
        have hlookup : entries.lookup key = some value := AList.mem_lookup_iff.mpr hentry
        obtain ⟨s, rfl, rfl⟩ := exists_setting_iff.mpr (hentries key value hlookup)
        exact ⟨s, rfl⟩
      obtain ⟨settings, hmap⟩ := hsettings
      have hnames : settings.map Setting.name = entries.keys := by
        rw [AList.keys, List.keys, ← hmap, List.map_map]
        rfl
      have hnodup : (settings.map Setting.name).Nodup := by
        rw [hnames]
        exact entries.nodupKeys
      have harranged : ((arranged settings).map Setting.name).Nodup :=
        ((arranged_perm settings).map Setting.name).nodup_iff.mpr hnodup
      refine ⟨save settings, ?_⟩
      rw [parse_save_arranged]
      refine congrArg (fun values => Except.ok (Config.mk values)) (Finmap.ext_lookup fun key => ?_)
      refine Option.ext fun value => ?_
      rw [lookup_insertAll harranged, Finmap.lookup_empty]
      constructor
      · rintro (⟨s, hs, rfl, rfl⟩ | ⟨hnone, -⟩)
        · refine AList.mem_lookup_iff.mpr ?_
          rw [← hmap]
          exact List.mem_map.mpr ⟨s, (arranged_perm settings).mem_iff.mp hs, rfl⟩
        · cases hnone
      · intro hlookup
        have hentry : (⟨key, value⟩ : Σ _ : Bytes, Bytes) ∈ entries.entries :=
          AList.mem_lookup_iff.mp hlookup
        rw [← hmap] at hentry
        obtain ⟨s, hs, heq⟩ := List.mem_map.mp hentry
        cases heq
        exact Or.inl ⟨s, (arranged_perm settings).mem_iff.mpr hs, rfl, rfl⟩

end Reame.Utils
