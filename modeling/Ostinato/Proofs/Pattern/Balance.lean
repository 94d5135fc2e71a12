import Ostinato.Proofs.Pattern.BracketStack

/-!
# Balanced texts

A text can be read exactly if its brackets are balanced and every pair of them holds a word or
another pair. With groups open, the rest of a text has to close them, one after the other. Of these
groups only the innermost can still lack a slot: the others hold the group inside them once it is
closed.

## Main definitions

* `HoldsSlot`: whether a text between brackets holds a slot.
* `IsBalanced`: whether the brackets of a text are balanced, with a slot between the two of every
  pair.
* `Completes`: whether the rest of a text closes the groups that are open.

## Main results

* `BracketStack.exists_scan_iff`: a scan succeeds if the rest of the text closes the open groups.
* `Slots.read_by_brackets`: reading a text is scanning it, and succeeds if the text is balanced.
-/

namespace Ostinato

/-! ### Words and pairs -/

/-- Whether a text between brackets holds a slot: a word or a pair of brackets. -/
def HoldsSlot (text : List Char) : Prop :=
  wordsOf text ≠ [] ∨ '[' ∈ text

theorem wordsOf_cons_of_isSeparator {c : Char} (h : isSeparator c = true) (text : List Char) :
    wordsOf (c :: text) = wordsOf text := by
  rw [wordsOf, List.splitOnP_cons_eq_if_modifyHead, if_pos h, List.filter_cons_of_neg (by simp),
    wordsOf]

theorem wordsOf_cons_ne_nil {c : Char} (h : isSeparator c = false) (text : List Char) :
    wordsOf (c :: text) ≠ [] := by
  obtain ⟨word, words, hsplit⟩ := List.exists_cons_of_ne_nil (List.splitOnP_ne_nil isSeparator text)
  rw [wordsOf, List.splitOnP_cons_eq_if_modifyHead, if_neg (Bool.eq_false_iff.1 h), hsplit,
    List.modifyHead_cons, List.filter_cons_of_pos (by simp)]
  exact List.cons_ne_nil _ _

theorem not_holdsSlot_nil : ¬ HoldsSlot [] := by
  rintro (hwords | hmem)
  · exact hwords rfl
  · exact List.not_mem_nil hmem

theorem holdsSlot_opening (text : List Char) : HoldsSlot ('[' :: text) :=
  .inr List.mem_cons_self

theorem holdsSlot_word {c : Char} (h : isSeparator c = false) (text : List Char) :
    HoldsSlot (c :: text) :=
  .inl (wordsOf_cons_ne_nil h text)

theorem holdsSlot_blank {c : Char} (h : isBlank c = true) (hopening : c ≠ '[') (text : List Char) :
    HoldsSlot (c :: text) ↔ HoldsSlot text := by
  have hseparator : isSeparator c = true := by rw [isSeparator, h, Bool.true_or, Bool.true_or]
  rw [HoldsSlot, HoldsSlot, wordsOf_cons_of_isSeparator hseparator,
    List.mem_cons, or_iff_right hopening.symm]

/-! ### Balance -/

/-- Whether the brackets of a text are balanced, with a slot between the two of every pair. -/
inductive IsBalanced : List Char → Prop
  | nil : IsBalanced []
  | cons {c : Char} {text : List Char} (hopening : c ≠ '[') (hclosing : c ≠ ']')
      (htext : IsBalanced text) : IsBalanced (c :: text)
  | pair {inner text : List Char} (hinner : IsBalanced inner) (hslot : HoldsSlot inner)
      (htext : IsBalanced text) : IsBalanced ('[' :: (inner ++ ']' :: text))

namespace IsBalanced

theorem cons_iff {c : Char} {text : List Char} (hopening : c ≠ '[') (hclosing : c ≠ ']') :
    IsBalanced (c :: text) ↔ IsBalanced text := by
  refine ⟨fun h => ?_, cons hopening hclosing⟩
  cases h with
  | cons _ _ htext => exact htext
  | pair _ _ _ => exact absurd rfl hopening

theorem opening_iff {text : List Char} :
    IsBalanced ('[' :: text) ↔ ∃ inner left, text = inner ++ ']' :: left ∧
      IsBalanced inner ∧ HoldsSlot inner ∧ IsBalanced left := by
  constructor
  · intro h
    cases h with
    | cons hopening _ _ => exact absurd rfl hopening
    | pair hinner hslot htext => exact ⟨_, _, rfl, hinner, hslot, htext⟩
  · rintro ⟨inner, left, rfl, hinner, hslot, hleft⟩
    exact pair hinner hslot hleft

theorem not_closing (text : List Char) : ¬ IsBalanced (']' :: text) := by
  intro h
  cases h with
  | cons _ hclosing _ => exact hclosing rfl

end IsBalanced

/-! ### Groups that are open -/

/-- Whether the rest of a text closes as many groups as are open, one after the other, with balanced
text in front of every bracket that does. The innermost group has a slot already, or gets one before
it is closed. -/
def Completes : Nat → Prop → List Char → Prop
  | 0, _, text => IsBalanced text
  | opened + 1, hasSlot, text => ∃ inner left, text = inner ++ ']' :: left ∧ IsBalanced inner ∧
      (hasSlot ∨ HoldsSlot inner) ∧ Completes opened True left

namespace Completes

variable {opened : Nat} {hasSlot : Prop} {text : List Char}

theorem nil_iff : Completes opened hasSlot [] ↔ opened = 0 := by
  cases opened with
  | zero => exact iff_of_true .nil rfl
  | succ opened =>
    refine iff_of_false ?_ (Nat.succ_ne_zero opened)
    rintro ⟨inner, left, htext, -⟩
    exact List.append_ne_nil_of_right_ne_nil inner (List.cons_ne_nil ']' left) htext.symm

theorem cons_iff {c : Char} (hopening : c ≠ '[') (hclosing : c ≠ ']') {hasSlot' : Prop}
    (hslot : ∀ inner, hasSlot ∨ HoldsSlot (c :: inner) ↔ hasSlot' ∨ HoldsSlot inner) :
    Completes opened hasSlot (c :: text) ↔ Completes opened hasSlot' text := by
  cases opened with
  | zero => exact IsBalanced.cons_iff hopening hclosing
  | succ opened =>
    constructor
    · rintro ⟨inner, left, htext, hinner, hfilled, hleft⟩
      obtain ⟨-, hhead⟩ | ⟨inner', rfl, rfl⟩ := List.cons_eq_append_iff.1 htext
      · exact absurd (List.cons.inj hhead).1.symm hclosing
      · exact ⟨inner', left, rfl, (IsBalanced.cons_iff hopening hclosing).1 hinner,
          (hslot inner').1 hfilled, hleft⟩
    · rintro ⟨inner, left, rfl, hinner, hfilled, hleft⟩
      exact ⟨c :: inner, left, rfl, .cons hopening hclosing hinner, (hslot inner).2 hfilled, hleft⟩

theorem blank_iff {c : Char} (hopening : c ≠ '[') (hclosing : c ≠ ']') (hblank : isBlank c = true) :
    Completes opened hasSlot (c :: text) ↔ Completes opened hasSlot text :=
  cons_iff hopening hclosing fun inner => or_congr_right (holdsSlot_blank hblank hopening inner)

theorem word_iff {c : Char} (h : isSeparator c = false) :
    Completes opened hasSlot (c :: text) ↔ Completes opened True text := by
  obtain ⟨hopening, hclosing, -⟩ := isSeparator_eq_false.1 h
  exact cons_iff hopening hclosing fun inner =>
    iff_of_true (.inr (holdsSlot_word h inner)) (.inl trivial)

theorem dropWhile_iff (opened : Nat) (text : List Char) :
    Completes opened True (text.dropWhile (!isSeparator ·)) ↔ Completes opened True text := by
  induction text with
  | nil => rfl
  | cons c text ih =>
    cases hc : isSeparator c with
    | true => rw [List.dropWhile_cons_of_neg (by simp [hc])]
    | false => rw [List.dropWhile_cons_of_pos (by simp [hc]), ih, word_iff hc]

theorem opening_iff :
    Completes opened hasSlot ('[' :: text) ↔ Completes (opened + 1) False text := by
  cases opened with
  | zero =>
    rw [Completes, IsBalanced.opening_iff]
    simp only [Completes, false_or]
  | succ opened =>
    -- the new group is closed within the text that closes the group around it
    constructor
    · rintro ⟨inner, left, htext, hinner, -, hleft⟩
      obtain ⟨-, hhead⟩ | ⟨inner', rfl, rfl⟩ := List.cons_eq_append_iff.1 htext
      · exact absurd (List.cons.inj hhead).1 (by decide)
      · obtain ⟨group, left', rfl, hgroup, hslot, hleft'⟩ := IsBalanced.opening_iff.1 hinner
        refine ⟨group, left' ++ ']' :: left, ?_, hgroup, .inr hslot, left', left, rfl, hleft',
          .inl trivial, hleft⟩
        rw [List.append_assoc, List.cons_append]
    · rintro ⟨group, left', rfl, hgroup, hslot, inner, left, rfl, hinner, -, hleft⟩
      refine ⟨'[' :: (group ++ ']' :: inner), left, ?_,
        .pair hgroup (hslot.resolve_left id) hinner, .inr (holdsSlot_opening _), hleft⟩
      rw [List.cons_append, List.append_assoc, List.cons_append]

theorem closing_iff : Completes opened hasSlot (']' :: text) ↔
    ∃ around, opened = around + 1 ∧ hasSlot ∧ Completes around True text := by
  cases opened with
  | zero =>
    refine iff_of_false (IsBalanced.not_closing text) ?_
    rintro ⟨around, hopened, -⟩
    exact Nat.succ_ne_zero around hopened.symm
  | succ opened =>
    constructor
    · rintro ⟨inner, left, htext, hinner, hfilled, hleft⟩
      obtain ⟨rfl, hhead⟩ | ⟨inner', rfl, -⟩ := List.cons_eq_append_iff.1 htext
      · obtain rfl := (List.cons.inj hhead).2
        exact ⟨opened, rfl, hfilled.resolve_right not_holdsSlot_nil, hleft⟩
      · exact absurd hinner (IsBalanced.not_closing inner')
    · rintro ⟨_, hopened, hfilled, htext⟩
      cases hopened
      exact ⟨[], text, rfl, .nil, .inl hfilled, htext⟩

end Completes

namespace BracketStack

/-- Whether the innermost open group has a slot. -/
def HasSlot (stack : BracketStack) : Prop :=
  ∀ group ∈ stack.groups.head?, group.slots ≠ []

theorem length_groups_add (stack : BracketStack) (slot : Pattern String) :
    (stack.add slot).groups.length = stack.groups.length := by
  cases stack with
  | mk root groups => cases groups <;> rfl

theorem hasSlot_add (stack : BracketStack) (slot : Pattern String) : (stack.add slot).HasSlot := by
  cases stack with
  | mk root groups =>
    cases groups with
    | nil => exact fun group hgroup => nomatch hgroup
    | cons group groups =>
      rintro _ ⟨⟩
      exact List.append_ne_nil_of_right_ne_nil _ (List.cons_ne_nil slot [])

/-- Closing a group takes it off the stack, and gives a slot to the one around it. -/
theorem closed_eq_ok_iff {stack next : BracketStack} {position : Nat} :
    stack.closed position = .ok next ↔
      ∃ group groups, stack.groups = group :: groups ∧ stack.HasSlot ∧
        next = { stack with groups }.add (.group group.slots) := by
  rw [closed]
  constructor
  · intro h
    split at h
    · contradiction
    · next group groups hgroups =>
      rw [hgroups, HasSlot, hgroups]
      by_cases hempty : group.slots = []
      · rw [if_pos hempty] at h
        contradiction
      · rw [if_neg hempty] at h
        refine ⟨group, groups, rfl, ?_, (Except.ok.inj h).symm⟩
        rintro _ ⟨⟩
        exact hempty
  · rintro ⟨group, groups, hgroups, hslot, rfl⟩
    rw [HasSlot, hgroups] at hslot
    rw [hgroups]
    exact if_neg (hslot group rfl)

/-- A scan succeeds if the rest of the text closes the open groups. -/
theorem exists_scan_iff (stack : BracketStack) (position : Nat) (text : List Char) :
    (∃ root, stack.scan position text = .ok root) ↔
      Completes stack.groups.length stack.HasSlot text := by
  induction stack, position, text using scan.induct with
  -- the end of the text, an opening bracket, and a closing one by whether it is accepted
  | case1 stack position =>
    rw [scan, finish, Completes.nil_iff, List.length_eq_zero_iff]
    split
    · next hgroups => exact iff_of_true ⟨_, rfl⟩ hgroups
    · next group groups hgroups =>
      refine iff_of_false ?_ (by rw [hgroups]; exact List.cons_ne_nil group groups)
      rintro ⟨root, hroot⟩
      contradiction
  | case2 stack position text ih =>
    have hslot : ¬ (stack.opened position).HasSlot := fun h => h ⟨position, []⟩ rfl rfl
    rw [scan, if_pos rfl, ih, Completes.opening_iff, eq_false hslot, opened, List.length_cons]
  | case3 stack position text e hclosed hc =>
    rw [scan, if_neg hc, if_pos rfl, hclosed, Completes.closing_iff]
    refine iff_of_false ?_ ?_
    · rintro ⟨root, hroot⟩
      contradiction
    · rintro ⟨around, hopened, hslot, -⟩
      obtain ⟨group, groups, hgroups⟩ := List.exists_cons_of_length_eq_add_one hopened
      rw [closed_eq_ok_iff.2 ⟨group, groups, hgroups, hslot, rfl⟩] at hclosed
      contradiction
  | case4 stack position text next hclosed hc ih =>
    obtain ⟨group, groups, hgroups, hslot, rfl⟩ := closed_eq_ok_iff.1 hclosed
    rw [scan, if_neg hc, if_pos rfl, hclosed, Completes.closing_iff]
    dsimp only
    rw [ih, eq_true (hasSlot_add _ _), length_groups_add, hgroups, List.length_cons]
    constructor
    · exact fun htext => ⟨groups.length, rfl, hslot, htext⟩
    · rintro ⟨around, hopened, -, htext⟩
      rwa [Nat.succ_inj.1 hopened]
  -- a blank, and a word
  | case5 stack position c text hopening hclosing hblank ih =>
    rw [scan, if_neg hopening, if_neg hclosing, if_pos hblank, ih,
      Completes.blank_iff hopening hclosing hblank]
  | case6 stack position c text hopening hclosing hblank word ih =>
    have hword : isSeparator c = false :=
      isSeparator_eq_false.2 ⟨hopening, hclosing, Bool.eq_false_iff.2 hblank⟩
    rw [scan, if_neg hopening, if_neg hclosing, if_neg hblank, Completes.word_iff hword, ih,
      eq_true (hasSlot_add _ _), length_groups_add, Completes.dropWhile_iff]

end BracketStack

/-- **Reading is a scan with a stack.** Whatever a text holds, reading it gives what the scan gives
that keeps the open groups on a stack: the same pattern, or the same fault at the same byte
position. It gives a pattern for the texts that are balanced, with a word or a pair between the
brackets of every pair, and for no others. -/
theorem Slots.read_by_brackets (text : String) :
    Slots.read text = BracketStack.scan {} 0 text.toList ∧
      ((∃ root, Slots.read text = .ok root) ↔ IsBalanced text.toList) ∧
      BracketFault.unexpectedClosing.message = "unexpected ']'" ∧
      BracketFault.emptyGroup.message = "empty group" ∧
      BracketFault.unclosed.message = "unclosed '['" := by
  have hread := Slots.read_eq_scan text
  refine ⟨hread, ?_, rfl, rfl, rfl⟩
  rw [hread]
  exact BracketStack.exists_scan_iff {} 0 text.toList

end Ostinato
