import Ostinato.Pattern.MiniNotation
import Ostinato.Proofs.Pattern.Leaves

/-!
# Words of a text

The words of a text are what stands between blanks and brackets. Reading a text turns its words into
the leaves of a pattern, in the same order: brackets only decide how deep a leaf lies.

## Main definitions

* `wordsOf`: the words of a text.
* `Step.ofWord`: the step that a word stands for.

## Main results

* `Mark.words_scan`: the marks of a text hold its words.
* `Slots.steps_ofMarks`: the slots that are read hold the words up to the closing bracket.
* `Slots.map_snd_leaves_of_read`: the leaves of a pattern that is read are the words of the text.
-/

namespace Ostinato

/-! ### Words -/

/-- Whether a character sets words apart. -/
def isSeparator (c : Char) : Bool :=
  isBlank c || c == '[' || c == ']'

/-- The words of a text: the longest stretches of characters between separators. -/
def wordsOf (text : List Char) : List (List Char) :=
  (text.splitOnP isSeparator).filter (· ≠ [])

/-- The step that a word stands for. -/
def Step.ofWord (text : List Char) : Step String :=
  if text = ['~'] ∨ text = ['_'] then .silence else .sound (String.ofList text)

theorem Pattern.ofWord_eq (text : List Char) : Pattern.ofWord text = .leaf (Step.ofWord text) := by
  rw [Pattern.ofWord, Step.ofWord]
  split <;> rfl

namespace Mark

/-- The word that a mark is, if it is one. -/
def word? : Mark → Option (List Char)
  | .word text => some text
  | _ => none

/-- The words among marks. -/
def words (marks : List Mark) : List (List Char) :=
  marks.filterMap word?

theorem words_consWord (reversed : List Char) (marks : List Mark) :
    words (consWord reversed marks) = [reversed.reverse].filter (· ≠ []) ++ words marks := by
  cases reversed with
  | nil => rfl
  | cons c reversed =>
    rw [consWord, if_neg (List.cons_ne_nil c reversed), List.filter_cons_of_pos (by simp)]
    rfl

theorem words_scanFrom (position : Nat) (reversed text : List Char) :
    words (scanFrom position reversed text) =
      (text.splitOnPPrepend isSeparator reversed).filter (· ≠ []) := by
  induction text generalizing position reversed with
  | nil =>
    rw [scanFrom, words_consWord, List.splitOnPPrepend_nil]
    exact List.append_nil _
  | cons c text ih =>
    have hbegun : ∀ marks : List Mark,
        words marks = (text.splitOnP isSeparator).filter (· ≠ []) →
        words (consWord reversed marks) =
          (reversed.reverse :: text.splitOnP isSeparator).filter (· ≠ []) := by
      intro marks hmarks
      rw [words_consWord, hmarks, ← List.filter_append, List.singleton_append]
    have hrest : words (scanFrom (position + c.utf8Size) [] text) =
        (text.splitOnP isSeparator).filter (· ≠ []) := by
      rw [ih, List.splitOnP_eq_splitOnPPrepend]
    rw [scanFrom, List.splitOnPPrepend_cons_eq_if, isSeparator]
    by_cases hopening : c = '['
    · rw [if_pos hopening, if_pos (by simp [hopening])]
      exact hbegun _ hrest
    · by_cases hclosing : c = ']'
      · rw [if_neg hopening, if_pos hclosing, if_pos (by simp [hclosing])]
        exact hbegun _ hrest
      · cases hblank : isBlank c with
        | true =>
          rw [if_neg hopening, if_neg hclosing, if_pos rfl, if_pos (by simp)]
          exact hbegun _ hrest
        | false =>
          rw [if_neg hopening, if_neg hclosing, if_neg Bool.false_ne_true,
            if_neg (by simp [hopening, hclosing])]
          exact ih _ _

/-- The marks of a text hold its words. -/
theorem words_scan (text : List Char) : words (scan text) = wordsOf text := by
  rw [scan, words_scanFrom, wordsOf, List.splitOnP_eq_splitOnPPrepend]

end Mark

/-! ### Steps -/

theorem Slots.map_snd_leavesFrom {α : Type} (index : Nat) : (slots : Slots α) →
    (Slots.leavesFrom index slots).map Prod.snd =
      slots.flatMap fun child => child.leaves.map Prod.snd
  | [] => rfl
  | child :: children => by
    rw [Slots.leavesFrom, List.map_append, List.map_map,
      Slots.map_snd_leavesFrom (index + 1) children, List.flatMap_cons]
    rfl

/-- The steps of a root, in reading order. -/
def Slots.steps {α : Type} (slots : Slots α) : List (Step α) :=
  slots.flatMap fun child => child.leaves.map Prod.snd

theorem Slots.map_snd_leaves {α : Type} (root : Slots α) :
    root.leaves.map Prod.snd = root.steps :=
  Slots.map_snd_leavesFrom 0 root

theorem Slots.steps_ofWord_cons (text : List Char) (slots : Slots String) :
    Slots.steps (.ofWord text :: slots) = Step.ofWord text :: slots.steps := by
  rw [steps, List.flatMap_cons, Pattern.ofWord_eq]
  rfl

theorem Slots.steps_group_cons {α : Type} (children slots : Slots α) :
    Slots.steps (.group children :: slots) = children.steps ++ slots.steps := by
  rw [steps, List.flatMap_cons, Pattern.leaves, map_snd_leavesFrom]
  rfl

/-- The slots that are read hold the words in front of the marks that are left, and none is left
behind the root. -/
theorem Slots.steps_ofMarks (opened : Option Nat) (marks : List Mark) :
    ∀ slots rest, ofMarks opened marks = .ok (slots, rest) →
      (Mark.words marks).map Step.ofWord =
          Slots.steps slots ++ (Mark.words rest.1).map Step.ofWord ∧
        (opened = none → rest.1 = []) := by
  induction opened, marks using ofMarks.induct with
  | case2 =>
    intro slots rest h
    rw [ofMarks] at h
    cases h
    exact ⟨rfl, fun _ => rfl⟩
  | case3 position marks opened =>
    intro slots rest h
    rw [ofMarks] at h
    cases h
    exact ⟨rfl, nofun⟩
  | case6 opened text marks slots left hleft hread ih =>
    intro all rest h
    rw [ofMarks, hread] at h
    cases h
    obtain ⟨hwords, hend⟩ := ih slots ⟨left, hleft⟩ hread
    have hmarks : Mark.words (.word text :: marks) = text :: Mark.words marks := rfl
    refine ⟨?_, hend⟩
    rw [hmarks, List.map_cons, hwords, steps_ofWord_cons, List.cons_append]
  | case10 opened position marks child children left hleft hread slots left' hleft' hrest ih ih' =>
    intro all rest h
    rw [ofMarks, hread] at h
    simp only [hrest] at h
    cases h
    obtain ⟨hgroup, -⟩ := ih (child :: children) ⟨left, hleft⟩ hread
    obtain ⟨hbehind, hend⟩ := ih' slots ⟨left', hleft'⟩ hrest
    have hmarks : Mark.words (.opening position :: marks) = Mark.words marks := rfl
    refine ⟨?_, hend⟩
    rw [hmarks, hgroup, hbehind, steps_group_cons, List.append_assoc]
  -- where nothing is read, there is nothing to show
  | case1 | case4 =>
    intro slots rest h
    rw [ofMarks] at h
    contradiction
  | case5 _ _ _ _ hread | case7 _ _ _ _ hread | case8 _ _ _ _ hread =>
    intro slots rest h
    rw [ofMarks, hread] at h
    contradiction
  | case9 _ _ _ _ _ _ _ hread _ hrest =>
    intro slots rest h
    rw [ofMarks, hread] at h
    simp only [hrest] at h
    contradiction

/-- **The leaves of a pattern that is read** are the words of the text, in the same order. -/
theorem Slots.map_snd_leaves_of_read {text : String} {root : Slots String}
    (h : read text = .ok root) :
    root.leaves.map Prod.snd = (wordsOf text.toList).map Step.ofWord := by
  rw [read] at h
  cases hmarks : ofMarks none (Mark.scan text.toList) with
  | error e =>
    rw [hmarks] at h
    contradiction
  | ok result =>
    obtain ⟨slots, rest⟩ := result
    rw [hmarks] at h
    cases h
    obtain ⟨hwords, hend⟩ := steps_ofMarks none (Mark.scan text.toList) slots rest hmarks
    rw [hend rfl, Mark.words_scan] at hwords
    rw [map_snd_leaves, hwords]
    exact (List.append_nil _).symm

end Ostinato
