import Ostinato.Proofs.Pattern.BracketStack
import Ostinato.Proofs.Pattern.EmptyGroups

/-!
# Spellings of a pattern

A pattern is spelled slot by slot: a sound as its word, silence as `~` or `_`, and a group as the
spelling of its slots between brackets. Blanks may stand between all of these, and have to where two
words would meet. What is spelled can be read back if it is well formed, that is if every sound is a
word of its own and every group has a slot; and whatever is read is well formed and spelled by its
text.

## Main definitions

* `IsWord`, `IsSoundWord`: what a word may look like, and a word that stands for a sound.
* `Slots.IsWellFormed`: whether slots can be spelled so that they are read back.
* `Slots.IsSpelledBy`: whether a text is a spelling of slots.
* `Slots.spell`: the spelling with single blanks between slots.

## Main results

* `BracketStack.exists_scan_append`: a scan of a spelling adds its slots.
* `BracketStack.readsSlots_of_scan`: a scan that succeeds has read a spelling.
* `Slots.read_eq_ok_iff`: what is read from a text.
* `Slots.read_spelling`: reading and spelling are inverse to each other.
-/

namespace Ostinato

/-! ### Words -/

/-- Whether some characters are a word: there is one, and none of them sets words apart. -/
def IsWord (word : List Char) : Prop :=
  word ≠ [] ∧ ∀ c ∈ word, isSeparator c = false

/-- Whether a word stands for a sound, and not for silence. -/
def IsSoundWord (word : List Char) : Prop :=
  IsWord word ∧ word ≠ ['~'] ∧ word ≠ ['_']

/-- Whether a text is at its end, or starts with a character that ends the word in front of it. -/
def IsSetApart (text : List Char) : Prop :=
  ∀ c ∈ text.head?, isSeparator c = true

theorem isSetApart_nil : IsSetApart [] :=
  fun _ hc => nomatch hc

theorem isSetApart_cons {c : Char} (h : isSeparator c = true) (text : List Char) :
    IsSetApart (c :: text) := by
  rintro _ ⟨⟩
  exact h

theorem IsSetApart.append {text rest : List Char} (h : IsSetApart text) (hrest : IsSetApart rest) :
    IsSetApart (text ++ rest) := by
  cases text with
  | nil => exact hrest
  | cons c text => exact isSetApart_cons (h c rfl) _

theorem IsSetApart.of_append {text rest : List Char} (h : IsSetApart (text ++ rest)) :
    IsSetApart text := by
  cases text with
  | nil => exact isSetApart_nil
  | cons c text => exact isSetApart_cons (h c rfl) _

theorem isSetApart_dropWhile (text : List Char) :
    IsSetApart (text.dropWhile (!isSeparator ·)) := by
  intro c hc
  have hnot := List.head?_dropWhile_not (!isSeparator ·) text
  rw [Option.mem_def.1 hc] at hnot
  simpa using hnot

theorem isWord_takeWhile {c : Char} (h : isSeparator c = false) (text : List Char) :
    IsWord (c :: text.takeWhile (!isSeparator ·)) := by
  refine ⟨List.cons_ne_nil c _, fun d hd => ?_⟩
  rcases List.mem_cons.1 hd with rfl | hd
  · exact h
  · have hnot := List.all_eq_true.1 List.all_takeWhile d hd
    simpa using hnot

theorem isWord_singleton {c : Char} (h : isSeparator c = false) : IsWord [c] :=
  ⟨List.cons_ne_nil c [], fun _ hd => List.mem_singleton.1 hd ▸ h⟩

theorem isBlank_ne {c : Char} (h : isBlank c = true) : c ≠ '[' ∧ c ≠ ']' := by
  constructor
  · rintro rfl
    exact absurd h (by decide)
  · rintro rfl
    exact absurd h (by decide)

/-! ### Well-formed patterns -/

mutual

/-- Whether a node can be spelled so that it is read back: a sound is a word for a sound, and a
group has a slot and well-formed slots only. -/
def Pattern.IsWellFormed : Pattern String → Prop
  | .leaf (.sound payload) => IsSoundWord payload.toList
  | .leaf .silence => True
  | .group children => children ≠ [] ∧ Slots.IsWellFormed children

/-- Whether slots can be spelled so that they are read back. -/
def Slots.IsWellFormed : Slots String → Prop
  | [] => True
  | child :: children => child.IsWellFormed ∧ Slots.IsWellFormed children

end

mutual

theorem Pattern.firstEmptyGroup?_of_isWellFormed :
    (node : Pattern String) → node.IsWellFormed → node.firstEmptyGroup? = none
  | .leaf _, _ => rfl
  | .group [], h => absurd rfl h.1
  | .group (child :: children), h =>
    Slots.firstEmptyGroupFrom?_of_isWellFormed 0 (child :: children) h.2

theorem Slots.firstEmptyGroupFrom?_of_isWellFormed (index : Nat) :
    (slots : List (Pattern String)) → Slots.IsWellFormed slots →
      Slots.firstEmptyGroupFrom? index slots = none
  | [], _ => rfl
  | child :: children, h => by
    rw [Slots.firstEmptyGroupFrom?, Pattern.firstEmptyGroup?_of_isWellFormed child h.1]
    exact Slots.firstEmptyGroupFrom?_of_isWellFormed (index + 1) children h.2

end

theorem Pattern.isWellFormed_ofWord {word : List Char} (h : IsWord word) :
    (Pattern.ofWord word).IsWellFormed := by
  rw [Pattern.ofWord]
  split
  · trivial
  · next hsound =>
    have hword : IsSoundWord word := ⟨h, not_or.1 hsound⟩
    rw [Pattern.sound, Pattern.IsWellFormed, String.toList_ofList]
    exact hword

namespace Slots

/-! ### Spellings -/

/-- Whether a text is a spelling of slots. A sound is spelled as its word and silence by either word
for it, and what follows a word is a blank, a bracket or the end. A group is spelled by its slots
between brackets. Blanks may stand anywhere else. -/
inductive IsSpelledBy : Slots String → List Char → Prop
  | nil : IsSpelledBy [] []
  | blank {slots : Slots String} {c : Char} {text : List Char} (hblank : isBlank c = true)
    (htext : IsSpelledBy slots text) : IsSpelledBy slots (c :: text)
  | sound {payload : String} {slots : Slots String} {text : List Char} (hapart : IsSetApart text)
    (htext : IsSpelledBy slots text) :
    IsSpelledBy (.leaf (.sound payload) :: slots) (payload.toList ++ text)
  | silence {word : List Char} {slots : Slots String} {text : List Char}
    (hword : word = ['~'] ∨ word = ['_']) (hapart : IsSetApart text)
    (htext : IsSpelledBy slots text) : IsSpelledBy (.leaf .silence :: slots) (word ++ text)
  | group {children slots : Slots String} {inner text : List Char}
    (hinner : IsSpelledBy children inner) (htext : IsSpelledBy slots text) :
    IsSpelledBy (.group children :: slots) ('[' :: (inner ++ ']' :: text))

theorem IsSpelledBy.ofWord {word text : List Char} {slots : Slots String} (hapart : IsSetApart text)
    (h : IsSpelledBy slots text) : IsSpelledBy (.ofWord word :: slots) (word ++ text) := by
  rw [Pattern.ofWord]
  split
  · next hword => exact .silence hword hapart h
  · have hsound := @IsSpelledBy.sound (String.ofList word) slots text hapart h
    rwa [String.toList_ofList] at hsound

end Slots

mutual

/-- The spelling of a node with single blanks between slots. -/
def Pattern.spell : Pattern String → List Char
  | .leaf (.sound payload) => payload.toList
  | .leaf .silence => ['~']
  | .group children => '[' :: (Slots.spell children ++ [']'])

/-- The spelling of slots with single blanks between them. -/
def Slots.spell : Slots String → List Char
  | [] => []
  | [child] => child.spell
  | child :: other :: children => child.spell ++ ' ' :: Slots.spell (other :: children)

end

mutual

theorem Pattern.isSpelledBy_spell_append {slots : Slots String} {text : List Char}
    (hapart : IsSetApart text) (h : slots.IsSpelledBy text) :
    (node : Pattern String) → Slots.IsSpelledBy (node :: slots) (node.spell ++ text)
  | .leaf (.sound _) => .sound hapart h
  | .leaf .silence => .silence (.inl rfl) hapart h
  | .group children => by
    rw [Pattern.spell, List.cons_append, List.append_assoc]
    exact .group (Slots.isSpelledBy_spell children) h

theorem Slots.isSpelledBy_spell : (slots : List (Pattern String)) →
    Slots.IsSpelledBy slots (Slots.spell slots)
  | [] => .nil
  | [child] => by
    have hchild := Pattern.isSpelledBy_spell_append isSetApart_nil .nil child
    rwa [List.append_nil] at hchild
  | child :: other :: children => by
    rw [Slots.spell]
    refine Pattern.isSpelledBy_spell_append (isSetApart_cons rfl _) ?_ child
    exact .blank rfl (Slots.isSpelledBy_spell (other :: children))

end

namespace BracketStack

/-! ### Reading a spelling -/

/-- A scan takes a word as a whole if it is set apart from what follows. -/
theorem scan_word_append {word text : List Char} (hword : IsWord word) (hapart : IsSetApart text)
    (stack : BracketStack) (position : Nat) :
    stack.scan position (word ++ text) =
      (stack.add (.ofWord word)).scan (position + byteLength word) text := by
  obtain ⟨c, rest, rfl⟩ := List.exists_cons_of_ne_nil hword.1
  obtain ⟨hopening, hclosing, hblank⟩ :=
    isSeparator_eq_false.1 (hword.2 c List.mem_cons_self)
  have hrest : ∀ d ∈ rest, (!isSeparator d) = true := fun d hd => by
    rw [hword.2 d (List.mem_cons_of_mem c hd), Bool.not_false]
  have htext : text.takeWhile (!isSeparator ·) = [] ∧ text.dropWhile (!isSeparator ·) = text := by
    cases text with
    | nil => exact ⟨rfl, rfl⟩
    | cons d text =>
      have hd : ¬ (!isSeparator d) = true := by rw [hapart d rfl]; decide
      exact ⟨List.takeWhile_cons_of_neg hd, List.dropWhile_cons_of_neg hd⟩
  rw [List.cons_append, scan, if_neg hopening, if_neg hclosing, if_neg (Bool.eq_false_iff.1 hblank),
    List.takeWhile_append_of_pos hrest, List.dropWhile_append_of_pos hrest, htext.1, htext.2,
    List.append_nil]

theorem scan_blank {c : Char} (h : isBlank c = true) (stack : BracketStack) (position : Nat)
    (text : List Char) :
    stack.scan position (c :: text) = stack.scan (position + c.utf8Size) text := by
  obtain ⟨hopening, hclosing⟩ := isBlank_ne h
  rw [scan, if_neg hopening, if_neg hclosing, if_pos h]

/-- A scan of a spelling adds the slots that are spelled. -/
theorem exists_scan_append {slots : Slots String} {text : List Char} (h : slots.IsSpelledBy text) :
    slots.IsWellFormed → ∀ rest, IsSetApart rest → ∀ (stack : BracketStack) (position : Nat),
      ∃ next, stack.scan position (text ++ rest) = (stack.addAll slots).scan next rest := by
  induction h with
  | nil => exact fun _ rest _ stack position => ⟨position, rfl⟩
  | blank hblank _ ih =>
    intro hformed rest hrest stack position
    rw [List.cons_append, scan_blank hblank]
    exact ih hformed rest hrest stack _
  | @sound payload slots text hapart _ ih =>
    intro hformed rest hrest stack position
    have hword : Pattern.ofWord payload.toList = .leaf (.sound payload) := by
      rw [Pattern.ofWord, if_neg (not_or.2 hformed.1.2), String.ofList_toList, Pattern.sound]
    rw [List.append_assoc, scan_word_append hformed.1.1 (hapart.append hrest), hword]
    exact ih hformed.2 rest hrest _ _
  | @silence word slots text hsilence hapart _ ih =>
    intro hformed rest hrest stack position
    have hword : IsWord word ∧ Pattern.ofWord word = .leaf .silence := by
      refine ⟨?_, if_pos hsilence⟩
      rcases hsilence with rfl | rfl
      · exact isWord_singleton rfl
      · exact isWord_singleton rfl
    rw [List.append_assoc, scan_word_append hword.1 (hapart.append hrest), hword.2]
    exact ih hformed.2 rest hrest _ _
  | @group children slots inner text _ _ ih ih' =>
    intro hformed rest hrest stack position
    -- the group is read on a stack with one more open group, which its bracket takes off again
    obtain ⟨closing, hinner⟩ := ih hformed.1.2 (']' :: (text ++ rest)) (isSetApart_cons rfl _)
      (stack.opened position) (position + '['.utf8Size)
    have hclosed : ((stack.opened position).addAll children).closed closing =
        .ok (stack.add (.group children)) := by
      rw [closed_addAll_opened, if_neg hformed.1.1]
    rw [List.cons_append, List.append_assoc, List.cons_append, scan, if_pos rfl, hinner, scan,
      if_neg (by decide), if_pos rfl, hclosed]
    exact ih' hformed.2 rest hrest _ _

/-! ### What has been read -/

/-- Whether a scan comes to a root by reading a spelling of well-formed slots up to the bracket that
closes their group, or up to the end of the text. -/
def ReadsSlots (stack : BracketStack) (text : List Char) (root : Slots String) : Prop :=
  ∃ slots front left next, text = front ++ left ∧ Slots.IsSpelledBy slots front ∧
    Slots.IsWellFormed slots ∧ (left = [] ∨ ∃ behind, left = ']' :: behind) ∧
    (stack.addAll slots).scan next left = .ok root

namespace ReadsSlots

variable {stack : BracketStack} {text : List Char} {root : Slots String}

theorem of_end {position : Nat} (h : stack.scan position text = .ok root)
    (hend : text = [] ∨ ∃ behind, text = ']' :: behind) : stack.ReadsSlots text root :=
  ⟨[], [], text, position, rfl, .nil, trivial, hend, h⟩

theorem blank {c : Char} (hblank : isBlank c = true) (h : stack.ReadsSlots text root) :
    stack.ReadsSlots (c :: text) root := by
  obtain ⟨slots, front, left, next, rfl, hspelled, hrest⟩ := h
  exact ⟨slots, c :: front, left, next, rfl, .blank hblank hspelled, hrest⟩

theorem word {word : List Char} (hword : IsWord word) (hapart : IsSetApart text)
    (h : (stack.add (.ofWord word)).ReadsSlots text root) :
    stack.ReadsSlots (word ++ text) root := by
  obtain ⟨slots, front, left, next, rfl, hspelled, hformed, hrest⟩ := h
  exact ⟨.ofWord word :: slots, word ++ front, left, next, (List.append_assoc ..).symm,
    hspelled.ofWord hapart.of_append, ⟨Pattern.isWellFormed_ofWord hword, hformed⟩, hrest⟩

/-- A group is read with its brackets, and then what stands behind it. -/
theorem group {children : Slots String} {inner : List Char} (hinner : children.IsSpelledBy inner)
    (hformed : (Pattern.group children).IsWellFormed)
    (h : (stack.add (.group children)).ReadsSlots text root) :
    stack.ReadsSlots ('[' :: (inner ++ ']' :: text)) root := by
  obtain ⟨slots, front, left, next, rfl, hspelled, hslots, hrest⟩ := h
  refine ⟨.group children :: slots, '[' :: (inner ++ ']' :: front), left, next, ?_,
    .group hinner hspelled, ⟨hformed, hslots⟩, hrest⟩
  rw [List.cons_append, List.append_assoc, List.cons_append]

end ReadsSlots

/-- A group that is read up to its end has been closed, with slots in it. -/
theorem exists_of_scan_opened {stack : BracketStack} {position next : Nat} {left : List Char}
    {slots root : Slots String} (hend : left = [] ∨ ∃ behind, left = ']' :: behind)
    (h : ((stack.opened position).addAll slots).scan next left = .ok root) :
    ∃ behind, left = ']' :: behind ∧ slots ≠ [] ∧
      (stack.add (.group slots)).scan (next + ']'.utf8Size) behind = .ok root := by
  rcases hend with rfl | ⟨behind, rfl⟩
  · rw [scan, opened, addAll_group] at h
    contradiction
  · rw [scan, if_neg (by decide), if_pos rfl, closed_addAll_opened] at h
    by_cases hempty : slots = []
    · rw [if_pos hempty] at h
      contradiction
    · rw [if_neg hempty] at h
      exact ⟨behind, rfl, hempty, h⟩

/-- A scan that succeeds has read a spelling. -/
theorem readsSlots_of_scan {text : List Char} {stack : BracketStack} {position : Nat}
    {root : Slots String} (h : stack.scan position text = .ok root) :
    stack.ReadsSlots text root := by
  -- not along the scan: what stands behind a group is read on the stack that the group has left
  induction hsize : text.length using Nat.strongRecOn generalizing text stack position with
  | _ size ih =>
    subst hsize
    cases text with
    | nil => exact .of_end h (.inl rfl)
    | cons c text =>
      by_cases hopening : c = '['
      · subst hopening
        rw [scan, if_pos rfl] at h
        obtain ⟨children, inner, left, next, rfl, hinner, hformed, hend, hscan⟩ :=
          ih text.length (Nat.lt_succ_self _) h rfl
        obtain ⟨behind, rfl, hne, hbehind⟩ := exists_of_scan_opened hend hscan
        refine .group hinner ⟨hne, hformed⟩ (ih behind.length ?_ hbehind rfl)
        simp only [List.length_cons, List.length_append]
        omega
      by_cases hclosing : c = ']'
      · exact .of_end h (.inr ⟨text, congrArg (· :: text) hclosing⟩)
      cases hblank : isBlank c with
      | true =>
        rw [scan_blank hblank] at h
        exact .blank hblank (ih text.length (Nat.lt_succ_self _) h rfl)
      | false =>
        have hc : isSeparator c = false := isSeparator_eq_false.2 ⟨hopening, hclosing, hblank⟩
        have hword := isWord_takeWhile hc text
        have hapart := isSetApart_dropWhile text
        have hsplit : c :: text = (c :: text.takeWhile (!isSeparator ·)) ++
            text.dropWhile (!isSeparator ·) := by
          rw [List.cons_append, List.takeWhile_append_dropWhile]
        rw [hsplit, scan_word_append hword hapart] at h
        rw [hsplit]
        refine .word hword hapart (ih _ ?_ h rfl)
        exact Nat.lt_succ_of_le (List.dropWhile_suffix _).length_le

end BracketStack

namespace Slots

/-- **What is read from a text** is the pattern that it spells, if that is well formed. -/
theorem read_eq_ok_iff {text : String} {root : Slots String} :
    read text = .ok root ↔ root.IsWellFormed ∧ root.IsSpelledBy text.toList := by
  rw [read_eq_scan]
  constructor
  · intro h
    obtain ⟨slots, front, left, next, htext, hspelled, hformed, hend, hscan⟩ :=
      BracketStack.readsSlots_of_scan h
    rw [BracketStack.addAll_root, List.nil_append] at hscan
    rcases hend with rfl | ⟨behind, rfl⟩
    · rw [BracketStack.scan] at hscan
      cases hscan
      rw [htext, List.append_nil]
      exact ⟨hformed, hspelled⟩
    · rw [BracketStack.scan, if_neg (by decide), if_pos rfl] at hscan
      contradiction
  · rintro ⟨hformed, hspelled⟩
    obtain ⟨next, hscan⟩ :=
      BracketStack.exists_scan_append hspelled hformed [] isSetApart_nil {} 0
    rw [List.append_nil, BracketStack.addAll_root, List.nil_append, BracketStack.scan] at hscan
    exact hscan

theorem IsWellFormed.layout_eq {root : Slots String} (h : root.IsWellFormed)
    (subdivision offset : Ticks) :
    root.layout subdivision offset = .ok (root.place subdivision offset) := by
  rw [layout, firstEmptyGroup?, firstEmptyGroupFrom?_of_isWellFormed 0 root h]

/-- **Reading and spelling are inverse to each other.** A text is read as a root exactly if the root
is well formed and the text is one of its spellings, wherever in it there are blanks. So the roots
that are read from some text are the well-formed ones: each of them is read from its spelling with
single blanks. And whatever has been read has a layout, for every subdivision and every offset. -/
theorem read_spelling (root : Slots String) :
    (∀ text, read text = .ok root ↔ root.IsWellFormed ∧ root.IsSpelledBy text.toList) ∧
      (root.IsWellFormed → read (String.ofList root.spell) = .ok root) ∧
      ((∃ text, read text = .ok root) ↔ root.IsWellFormed) ∧
      ∀ text, read text = .ok root → ∀ subdivision offset,
        root.layout subdivision offset = .ok (root.place subdivision offset) := by
  have hspell : root.IsWellFormed → read (String.ofList root.spell) = .ok root := by
    intro hformed
    refine read_eq_ok_iff.2 ⟨hformed, ?_⟩
    rw [String.toList_ofList]
    exact isSpelledBy_spell root
  refine ⟨fun text => read_eq_ok_iff, hspell, ⟨?_, fun hformed => ⟨_, hspell hformed⟩⟩, ?_⟩
  · rintro ⟨text, hread⟩
    exact (read_eq_ok_iff.1 hread).1
  · exact fun text hread => (read_eq_ok_iff.1 hread).1.layout_eq

/-- Hardly any blanks, blanks of several kinds, and both words for silence. -/
theorem read_spelling_crowded :
    let root : Slots String :=
      [.sound "a", .group [.sound "b", .group [.silence, .sound "ré"]], .silence, .sound "d"]
    let text := "a[ b[_　ré]
]~	d "
    root.IsWellFormed ∧ root.IsSpelledBy text.toList ∧ read text = .ok root ∧
      String.ofList root.spell = "a [b [~ ré]] ~ d" ∧
      read (String.ofList root.spell) = .ok root ∧
      root.layout 960 5 = .ok (root.place 960 5) := by
  intro root text
  obtain ⟨hread, hspell, -, hlayout⟩ := read_spelling root
  have hcrowded : read text = .ok root := by
    have hroot : (read text).toOption = some root := by decide +kernel
    cases hresult : read text with
    | error e =>
      rw [hresult] at hroot
      contradiction
    | ok other =>
      rw [hresult] at hroot
      rw [Option.some.inj hroot]
  obtain ⟨hformed, hspelled⟩ := (hread text).1 hcrowded
  exact ⟨hformed, hspelled, hcrowded, by decide +kernel, hspell hformed,
    hlayout text hcrowded 960 5⟩

end Slots

end Ostinato
