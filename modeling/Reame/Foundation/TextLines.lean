import Mathlib.Data.List.DropRight
import Mathlib.Tactic

/-!
# Texts made of lines

Readers of line formats do three things before they look at what a line says: they cut a text
into lines, they leave out the blanks at the two ends of a piece of text, and they cut a line
in two at a separator.  Each of the three has an inverse, which puts the text together again:
`unlines`, padding, and writing the separator.  A writer needs the inverses, and knows that a
reader undoes them where no piece contains what separates it from the next.
-/

namespace Reame.TextLines

variable {α : Type*}

/-! ## Blanks at the ends -/

section Strip

variable {p : α → Bool} {text : List α}

/-- A text without the blanks at its two ends. -/
def strip (p : α → Bool) (text : List α) : List α := (text.dropWhile p).rdropWhile p

/-- There is no blank at either end. -/
structure Stripped (p : α → Bool) (text : List α) : Prop where
  head : ∀ a ∈ text.head?, p a = false
  last : ∀ a ∈ text.getLast?, p a = false

instance (p : α → Bool) (text : List α) : Decidable (Stripped p text) :=
  decidable_of_iff ((∀ a ∈ text.head?, p a = false) ∧ ∀ a ∈ text.getLast?, p a = false)
    ⟨fun h => ⟨h.1, h.2⟩, fun h => ⟨h.head, h.last⟩⟩

theorem dropWhile_of_head (hhead : ∀ a ∈ text.head?, p a = false) : text.dropWhile p = text := by
  cases text with
  | nil => rfl
  | cons a rest =>
      have ha : ¬ p a = true := by
        rw [hhead a rfl]
        exact Bool.false_ne_true
      exact List.dropWhile_cons_of_neg ha

theorem rdropWhile_of_last (hlast : ∀ a ∈ text.getLast?, p a = false) :
    text.rdropWhile p = text := by
  rw [List.rdropWhile_eq_self_iff]
  intro hne
  rw [hlast _ (List.getLast?_eq_getLast_of_ne_nil hne)]
  exact Bool.false_ne_true

theorem strip_of_stripped (htext : Stripped p text) : strip p text = text := by
  rw [strip, dropWhile_of_head htext.head, rdropWhile_of_last htext.last]

theorem stripped_strip (p : α → Bool) (text : List α) : Stripped p (strip p text) := by
  constructor
  · intro a ha
    -- The first byte that is left is the first one behind the blanks.
    obtain ⟨rest, hrest⟩ : strip p text <+: text.dropWhile p := List.rdropWhile_prefix p _
    have hdrop : (text.dropWhile p).head? = some a := by
      rw [← hrest, List.head?_append, Option.mem_def.mp ha]
      rfl
    have hnot := List.head?_dropWhile_not p text
    rw [hdrop] at hnot
    simpa using hnot
  · intro a ha
    have hne : strip p text ≠ [] := by
      intro hnil
      rw [hnil] at ha
      cases ha
    rw [List.getLast?_eq_getLast_of_ne_nil hne] at ha
    cases ha
    have hnot : ¬ p ((strip p text).getLast hne) = true :=
      List.rdropWhile_last_not p (text.dropWhile p) hne
    exact Bool.eq_false_of_not_eq_true hnot

/-- Blanks at the ends make no difference. -/
theorem strip_pad {before after : List α} (hbefore : ∀ a ∈ before, p a = true)
    (hafter : ∀ a ∈ after, p a = true) (text : List α) :
    strip p (before ++ text ++ after) = strip p text := by
  have hright : ∀ body : List α, (body ++ after).rdropWhile p = body.rdropWhile p := by
    intro body
    rw [List.rdropWhile, List.reverse_append, List.dropWhile_append_of_pos]
    · rfl
    · intro a ha
      exact hafter a (List.mem_reverse.mp ha)
  rw [strip, List.append_assoc, List.dropWhile_append_of_pos hbefore, List.dropWhile_append, strip]
  split_ifs with hblank
  · -- There is nothing but blanks.
    have hnil : text.dropWhile p = [] := List.isEmpty_iff.mp hblank
    have hall : after.dropWhile p = [] := List.dropWhile_eq_nil_iff.mpr hafter
    rw [hnil, hall]
  · exact hright _

theorem mem_of_mem_strip {a : α} (ha : a ∈ strip p text) : a ∈ text :=
  List.dropWhile_subset p ((List.rdropWhile_prefix p _).subset ha)

/-- A text that does not start with a blank keeps its first byte. -/
theorem head?_strip (hhead : ∀ a ∈ text.head?, p a = false) (hne : strip p text ≠ []) :
    (strip p text).head? = text.head? := by
  obtain ⟨rest, hrest⟩ : strip p text <+: text := by
    rw [strip, dropWhile_of_head hhead]
    exact List.rdropWhile_prefix p text
  obtain ⟨a, tail, hstrip⟩ := List.exists_cons_of_ne_nil hne
  rw [hstrip] at hrest ⊢
  rw [← hrest]
  rfl

end Strip

/-! ## Separators -/

section Cut

variable [DecidableEq α] {sep : α} {text first second : List α}

/-- A text cut in two at the first separator. -/
def cut (sep : α) (text : List α) : Option (List α × List α) :=
  (text.idxOf? sep).map fun i => (text.take i, text.drop (i + 1))

theorem cut_append (hfirst : sep ∉ first) (second : List α) :
    cut sep (first ++ sep :: second) = some (first, second) := by
  have hidx : (first ++ sep :: second).idxOf? sep = some first.length := by
    induction first with
    | nil => rw [List.nil_append, List.idxOf?_cons, if_pos (beq_self_eq_true sep)]; rfl
    | cons a rest ih =>
        have ha : ¬ (a == sep) = true := by
          rw [beq_iff_eq]
          intro heq
          exact hfirst (heq ▸ List.mem_cons_self ..)
        have ih := ih fun hmem => hfirst (List.mem_cons_of_mem _ hmem)
        rw [List.cons_append, List.idxOf?_cons, if_neg ha, ih]
        rfl
  rw [cut, hidx, Option.map_some, List.take_left, List.drop_append, Nat.add_sub_cancel_left,
    List.drop_of_length_le (Nat.le_succ _)]
  rfl

theorem cut_eq_none_iff : cut sep text = none ↔ sep ∉ text := by
  rw [cut, Option.map_eq_none_iff, List.idxOf?_eq_none_iff]

theorem cut_eq_some_iff :
    cut sep text = some (first, second) ↔ sep ∉ first ∧ text = first ++ sep :: second := by
  constructor
  · intro hcut
    have hmem : sep ∈ text := by
      by_contra hnot
      rw [cut_eq_none_iff.mpr hnot] at hcut
      cases hcut
    obtain ⟨before, after, rfl, hbefore⟩ := List.eq_append_cons_of_mem hmem
    rw [cut_append hbefore] at hcut
    cases hcut
    exact ⟨hbefore, rfl⟩
  · rintro ⟨hfirst, rfl⟩
    exact cut_append hfirst second

end Cut

/-! ## Lines -/

section Lines

variable [DecidableEq α] {sep : α}

/-- The lines of a text; the last one need not be ended. -/
def lines (sep : α) : List α → List (List α)
  | [] => []
  | a :: text =>
      if a = sep then [] :: lines sep text
      else
        match lines sep text with
        | [] => [[a]]
        | line :: rest => (a :: line) :: rest

/-- The text of which these are the lines; each of them is ended. -/
def unlines (sep : α) (ls : List (List α)) : List α := ls.flatMap fun line => line ++ [sep]

theorem lines_append {line : List α} (hline : sep ∉ line) (text : List α) :
    lines sep (line ++ sep :: text) = line :: lines sep text := by
  induction line with
  | nil => rw [List.nil_append, lines, if_pos rfl]
  | cons a line ih =>
      have ha : a ≠ sep := fun heq => hline (heq ▸ List.mem_cons_self ..)
      have ih := ih fun hmem => hline (List.mem_cons_of_mem _ hmem)
      rw [List.cons_append, lines, if_neg ha, ih]

/-- A line has no separator in it. -/
theorem notMem_of_mem_lines {text line : List α} (hline : line ∈ lines sep text) :
    sep ∉ line := by
  induction text generalizing line with
  | nil => cases hline
  | cons a text ih =>
      rw [lines] at hline
      split_ifs at hline with ha
      · rcases List.mem_cons.mp hline with rfl | hrest
        · exact List.not_mem_nil
        · exact ih hrest
      · cases hlines : lines sep text with
        | nil =>
            rw [hlines] at hline
            rw [List.mem_singleton.mp hline, List.mem_singleton]
            exact fun heq => ha heq.symm
        | cons first rest =>
            rw [hlines] at hline ih
            rcases List.mem_cons.mp hline with rfl | hrest
            · rw [List.mem_cons, not_or]
              exact ⟨fun heq => ha heq.symm, ih (List.mem_cons_self ..)⟩
            · exact ih (List.mem_cons_of_mem _ hrest)

/-- A reader gets the lines back that a writer has put together. -/
theorem lines_unlines {ls : List (List α)} (hls : ∀ line ∈ ls, sep ∉ line) :
    lines sep (unlines sep ls) = ls := by
  induction ls with
  | nil => rfl
  | cons line ls ih =>
      have ih := ih fun later hlater => hls later (List.mem_cons_of_mem _ hlater)
      have hcons : unlines sep (line :: ls) = line ++ sep :: unlines sep ls := by
        rw [unlines, List.flatMap_cons, List.append_assoc]
        rfl
      rw [hcons, lines_append (hls line (List.mem_cons_self ..)), ih]

end Lines

end Reame.TextLines
