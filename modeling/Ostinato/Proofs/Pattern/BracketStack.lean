import Ostinato.Proofs.Pattern.Words

/-!
# Reading with a stack

A text can be read from left to right with the groups that are open on a stack: a word goes to the
innermost of them, an opening bracket puts one more on top, and a closing bracket takes the topmost
off and makes it a slot of the one below. The reader of `Slots.read` has no stack and calls itself
at every opening bracket. Both read the same pattern, and both stop at the same fault.

## Main definitions

* `OpenGroup`, `BracketStack`: the groups that are open, and the slots of the root.
* `BracketStack.add`, `BracketStack.opened`, `BracketStack.closed`, `BracketStack.finish`: what a
  word, a bracket and the end of the text do.
* `BracketStack.scan`: reading a text.

## Main results

* `BracketStack.scan_eq_readMarks`: reading the characters is reading the marks.
* `BracketStack.follows_of_position?`: reading with a stack is reading group by group.
* `Slots.read_eq_scan`: both readers agree.
* `Slots.exists_malformed_of_read`: a text is refused for a fault of a bracket, and for nothing
  else.
-/

namespace Ostinato

/-! ### The stack -/

/-- A group that is open: the byte position of its bracket, and its slots so far. -/
structure OpenGroup where
  position : Nat
  slots : Slots String

/-- The slots of the root so far, and the groups that are open, the innermost first. -/
structure BracketStack where
  root : Slots String := []
  groups : List OpenGroup := []

/-- The number of bytes of a word. -/
def byteLength (word : List Char) : Nat :=
  word.foldr (fun c size => c.utf8Size + size) 0

namespace BracketStack

/-- Adds a slot to the innermost open group, or to the root if none is open. -/
def add (stack : BracketStack) (slot : Pattern String) : BracketStack :=
  match stack.groups with
  | [] => { stack with root := stack.root ++ [slot] }
  | group :: groups =>
    { stack with groups := { group with slots := group.slots ++ [slot] } :: groups }

/-- Opens a group at a byte position. -/
def opened (stack : BracketStack) (position : Nat) : BracketStack :=
  { stack with groups := ⟨position, []⟩ :: stack.groups }

/-- Closes the innermost open group at a byte position, and adds it to the one around it. -/
def closed (stack : BracketStack) (position : Nat) : Except PatternError BracketStack :=
  match stack.groups with
  | [] => .error (.malformed position .unexpectedClosing)
  | group :: groups =>
    if group.slots = [] then .error (.malformed group.position .emptyGroup)
    else .ok ({ stack with groups }.add (.group group.slots))

/-- Ends the text: no group may be open. -/
def finish (stack : BracketStack) : Except PatternError (Slots String) :=
  match stack.groups with
  | [] => .ok stack.root
  | group :: _ => .error (.malformed group.position .unclosed)

/-- Reads the rest of a text, which starts at a byte position. A word is a longest stretch of
characters that are neither blank nor a bracket. -/
def scan (stack : BracketStack) (position : Nat) : List Char → Except PatternError (Slots String)
  | [] => stack.finish
  | c :: text =>
    if c = '[' then (stack.opened position).scan (position + c.utf8Size) text
    else if c = ']' then
      match stack.closed position with
      | .error e => .error e
      | .ok next => next.scan (position + c.utf8Size) text
    else if isBlank c then stack.scan (position + c.utf8Size) text
    else
      let word := c :: text.takeWhile (!isSeparator ·)
      (stack.add (.ofWord word)).scan (position + byteLength word)
        (text.dropWhile (!isSeparator ·))
termination_by text => text.length
decreasing_by
  all_goals simp only [List.length_cons]
  any_goals omega
  have hsuffix : text.dropWhile (!isSeparator ·) <:+ text := List.dropWhile_suffix _
  have := hsuffix.length_le
  omega

/-! ### Reading marks -/

/-- What a mark does to the stack. -/
def onMark (stack : BracketStack) : Mark → Except PatternError BracketStack
  | .opening position => .ok (stack.opened position)
  | .closing position => stack.closed position
  | .word text => .ok (stack.add (.ofWord text))

/-- Reads marks. -/
def readMarks (stack : BracketStack) : List Mark → Except PatternError (Slots String)
  | [] => stack.finish
  | mark :: marks =>
    match stack.onMark mark with
    | .error e => .error e
    | .ok next => next.readMarks marks

end BracketStack

/-! ### Marks of a text -/

theorem byteLength_cons (c : Char) (word : List Char) :
    byteLength (c :: word) = c.utf8Size + byteLength word := rfl

theorem isSeparator_eq_false {c : Char} :
    isSeparator c = false ↔ c ≠ '[' ∧ c ≠ ']' ∧ isBlank c = false := by
  rw [isSeparator, Bool.or_eq_false_iff, Bool.or_eq_false_iff, beq_eq_false_iff_ne,
    beq_eq_false_iff_ne]
  exact ⟨fun h => ⟨h.1.2, h.2, h.1.1⟩, fun h => ⟨⟨h.2.2, h.1⟩, h.2.1⟩⟩

namespace Mark

theorem consWord_nil (marks : List Mark) : consWord [] marks = marks := rfl

theorem scanFrom_of_not_isSeparator {c : Char} (h : isSeparator c = false) (position : Nat)
    (reversed text : List Char) :
    scanFrom position reversed (c :: text) =
      scanFrom (position + c.utf8Size) (c :: reversed) text := by
  obtain ⟨hopening, hclosing, hblank⟩ := isSeparator_eq_false.1 h
  rw [scanFrom, if_neg hopening, if_neg hclosing, if_neg (Bool.eq_false_iff.1 hblank)]

theorem scanFrom_of_isSeparator {c : Char} (h : isSeparator c = true) (position : Nat)
    (reversed text : List Char) :
    scanFrom position reversed (c :: text) =
      consWord reversed (scanFrom position [] (c :: text)) := by
  by_cases hopening : c = '['
  · simp only [scanFrom, if_pos hopening, consWord_nil]
  · by_cases hclosing : c = ']'
    · simp only [scanFrom, if_neg hopening, if_pos hclosing, consWord_nil]
    · cases hblank : isBlank c with
      | true =>
        simp only [scanFrom, if_neg hopening, if_neg hclosing, hblank, if_true, consWord_nil]
      | false =>
        rw [isSeparator_eq_false.2 ⟨hopening, hclosing, hblank⟩] at h
        contradiction

/-- A word that has begun goes on up to the next separator. -/
theorem scanFrom_eq_consWord (position : Nat) (reversed text : List Char) :
    scanFrom position reversed text =
      consWord ((text.takeWhile (!isSeparator ·)).reverse ++ reversed)
        (scanFrom (position + byteLength (text.takeWhile (!isSeparator ·))) []
          (text.dropWhile (!isSeparator ·))) := by
  induction text generalizing position reversed with
  | nil => rfl
  | cons c text ih =>
    cases hc : isSeparator c with
    | true =>
      rw [List.takeWhile_cons_of_neg (by simp [hc]), List.dropWhile_cons_of_neg (by simp [hc])]
      exact scanFrom_of_isSeparator hc position reversed text
    | false =>
      rw [List.takeWhile_cons_of_pos (by simp [hc]), List.dropWhile_cons_of_pos (by simp [hc]),
        scanFrom_of_not_isSeparator hc, ih, byteLength_cons, Nat.add_assoc, List.reverse_cons,
        List.append_assoc, List.singleton_append]

/-- A character that is not a separator begins a word. -/
theorem scanFrom_nil_of_not_isSeparator {c : Char} (h : isSeparator c = false) (position : Nat)
    (text : List Char) :
    scanFrom position [] (c :: text) =
      .word (c :: text.takeWhile (!isSeparator ·)) ::
        scanFrom (position + byteLength (c :: text.takeWhile (!isSeparator ·))) []
          (text.dropWhile (!isSeparator ·)) := by
  rw [scanFrom_of_not_isSeparator h, scanFrom_eq_consWord, consWord,
    if_neg (List.append_ne_nil_of_right_ne_nil _ (List.cons_ne_nil c [])), List.reverse_append,
    List.reverse_reverse, byteLength_cons, Nat.add_assoc]
  rfl

end Mark

namespace BracketStack

/-- Reading the characters of a text is reading its marks. -/
theorem scan_eq_readMarks (stack : BracketStack) (position : Nat) (text : List Char) :
    stack.scan position text = stack.readMarks (Mark.scanFrom position [] text) := by
  induction stack, position, text using scan.induct with
  | case1 stack position => rw [scan, Mark.scanFrom, Mark.consWord_nil, readMarks]
  | case2 stack position text ih =>
    rw [scan, if_pos rfl, ih, Mark.scanFrom, if_pos rfl, Mark.consWord_nil, readMarks, onMark]
  | case3 stack position text e hclosed hc =>
    rw [scan, if_neg hc, if_pos rfl, hclosed, Mark.scanFrom, if_neg hc, if_pos rfl,
      Mark.consWord_nil, readMarks, onMark, hclosed]
  | case4 stack position text next hclosed hc ih =>
    rw [scan, if_neg hc, if_pos rfl, hclosed, Mark.scanFrom, if_neg hc, if_pos rfl,
      Mark.consWord_nil, readMarks, onMark, hclosed]
    exact ih
  | case5 stack position c text hopening hclosing hblank ih =>
    rw [scan, if_neg hopening, if_neg hclosing, if_pos hblank, ih, Mark.scanFrom, if_neg hopening,
      if_neg hclosing, if_pos hblank, Mark.consWord_nil]
  | case6 stack position c text hopening hclosing hblank word ih =>
    have hword : isSeparator c = false :=
      isSeparator_eq_false.2 ⟨hopening, hclosing, Bool.eq_false_iff.2 hblank⟩
    rw [scan, if_neg hopening, if_neg hclosing, if_neg hblank,
      Mark.scanFrom_nil_of_not_isSeparator hword, readMarks, onMark]
    exact ih

/-! ### Reading group by group -/

/-- Adds slots one after the other. -/
def addAll (stack : BracketStack) (slots : Slots String) : BracketStack :=
  slots.foldl add stack

/-- The byte position of the innermost open group. -/
def position? (stack : BracketStack) : Option Nat :=
  stack.groups.head?.map OpenGroup.position

theorem position?_add (stack : BracketStack) (slot : Pattern String) :
    (stack.add slot).position? = stack.position? := by
  cases stack with
  | mk root groups => cases groups <;> rfl

theorem addAll_root (root slots : Slots String) :
    addAll { root } slots = { root := root ++ slots } := by
  induction slots generalizing root with
  | nil => rw [List.append_nil, addAll, List.foldl_nil]
  | cons slot slots ih =>
    have hnext : addAll { root } (slot :: slots) = addAll { root := root ++ [slot] } slots := rfl
    rw [hnext, ih, List.append_assoc, List.singleton_append]

theorem addAll_group (root : Slots String) (group : OpenGroup) (groups : List OpenGroup)
    (slots : Slots String) :
    addAll ⟨root, group :: groups⟩ slots =
      ⟨root, { group with slots := group.slots ++ slots } :: groups⟩ := by
  induction slots generalizing group with
  | nil => rw [List.append_nil, addAll, List.foldl_nil]
  | cons slot slots ih =>
    have hnext : addAll ⟨root, group :: groups⟩ (slot :: slots) =
        addAll ⟨root, { group with slots := group.slots ++ [slot] } :: groups⟩ slots := rfl
    rw [hnext, ih, List.append_assoc, List.singleton_append]

/-- A group that has been opened and filled is closed. -/
theorem closed_addAll_opened (stack : BracketStack) (position closing : Nat)
    (slots : Slots String) :
    ((stack.opened position).addAll slots).closed closing =
      if slots = [] then .error (.malformed position .emptyGroup)
      else .ok (stack.add (.group slots)) := by
  rw [opened, addAll_group]
  rfl

/-- What a group becomes that is opened and read up to its closing bracket. -/
theorem readMarks_opening {stack : BracketStack} {position closing : Nat} {slots : Slots String}
    {marks left : List Mark}
    (h : (stack.opened position).readMarks marks =
      ((stack.opened position).addAll slots).readMarks (.closing closing :: left)) :
    stack.readMarks (.opening position :: marks) =
      if slots = [] then .error (.malformed position .emptyGroup)
      else (stack.add (.group slots)).readMarks left := by
  have hopening : stack.readMarks (.opening position :: marks) =
      (stack.opened position).readMarks marks := rfl
  rw [hopening, h, readMarks, onMark, closed_addAll_opened]
  by_cases hempty : slots = []
  · rw [if_pos hempty, if_pos hempty]
  · rw [if_neg hempty, if_neg hempty]

/-- Whether a stack follows the reading of the slots of a group, which `opened` is the position of,
or of the root. It stops at the same fault; or it comes to the bracket that closes the group, or to
the end of the root, with these slots added. -/
def Follows (stack : BracketStack) (opened : Option Nat) (marks : List Mark) : Prop :=
  match Slots.ofMarks opened marks with
  | .error e => stack.readMarks marks = .error e
  | .ok (slots, rest) => ∃ closing, stack.readMarks marks =
      (stack.addAll slots).readMarks (opened.elim [] fun _ => .closing closing :: rest.1)

theorem follows_word {stack : BracketStack} {opened : Option Nat} {text : List Char}
    {marks : List Mark} (h : (stack.add (.ofWord text)).Follows opened marks) :
    stack.Follows opened (.word text :: marks) := by
  rw [Follows] at h
  rw [Follows, Slots.ofMarks]
  cases hread : Slots.ofMarks opened marks with
  | error e =>
    rw [hread] at h
    exact h
  | ok result =>
    obtain ⟨slots, rest, hrest⟩ := result
    rw [hread] at h
    exact h

/-- A group with slots in it, and the marks behind it. -/
theorem follows_opening {stack : BracketStack} {opened : Option Nat} {position : Nat}
    {child : Pattern String} {children : Slots String} {marks left : List Mark}
    (hleft : left.length ≤ marks.length)
    (hread : Slots.ofMarks (some position) marks = .ok (child :: children, ⟨left, hleft⟩))
    (hgroup : (stack.opened position).Follows (some position) marks)
    (h : (stack.add (.group (child :: children))).Follows opened left) :
    stack.Follows opened (.opening position :: marks) := by
  rw [Follows, hread] at hgroup
  obtain ⟨closing, hclosing⟩ := hgroup
  have hbehind : stack.readMarks (.opening position :: marks) =
      (stack.add (.group (child :: children))).readMarks left := by
    rw [readMarks_opening hclosing, if_neg (List.cons_ne_nil child children)]
  rw [Follows] at h
  rw [Follows, Slots.ofMarks, hread, hbehind]
  dsimp only
  cases hrest : Slots.ofMarks opened left with
  | error e =>
    rw [hrest] at h
    exact h
  | ok result =>
    obtain ⟨slots, rest, hrest'⟩ := result
    rw [hrest] at h
    exact h

/-- **Reading group by group.** A stack follows the reading of its innermost open group. -/
theorem follows_of_position? (opened : Option Nat) (marks : List Mark) :
    ∀ stack : BracketStack, stack.position? = opened → stack.Follows opened marks := by
  induction opened, marks using Slots.ofMarks.induct with
  -- the end of the text, and a closing bracket, by whether a group is open
  | case1 position =>
    rintro ⟨root, _ | ⟨group, groups⟩⟩ hopened
    · contradiction
    · cases hopened
      rw [Follows, Slots.ofMarks]
      rfl
  | case2 =>
    intro stack _
    rw [Follows, Slots.ofMarks]
    exact ⟨0, rfl⟩
  | case3 position marks opened =>
    intro stack _
    rw [Follows, Slots.ofMarks]
    exact ⟨position, rfl⟩
  | case4 position marks =>
    rintro ⟨root, _ | ⟨group, groups⟩⟩ hopened
    · rw [Follows, Slots.ofMarks]
      rfl
    · contradiction
  | case5 opened text marks _ _ ih | case6 opened text marks _ _ _ _ ih =>
    intro stack hopened
    exact follows_word (ih _ ((position?_add ..).trans hopened))
  -- an opening bracket: a fault in the group, no slots in it, and slots in it
  | case7 opened position marks e hread ih =>
    intro stack _
    have hgroup := ih (stack.opened position) rfl
    rw [Follows, hread] at hgroup
    rw [Follows, Slots.ofMarks, hread]
    exact hgroup
  | case8 opened position marks left hread ih =>
    intro stack _
    have hgroup := ih (stack.opened position) rfl
    rw [Follows, hread] at hgroup
    obtain ⟨closing, hclosing⟩ := hgroup
    rw [Follows, Slots.ofMarks, hread]
    exact readMarks_opening hclosing
  | case9 _ position _ _ _ _ hleft hread _ _ ih ih'
  | case10 _ position _ _ _ _ hleft hread _ _ _ _ ih ih' =>
    intro stack hopened
    exact follows_opening hleft hread (ih (stack.opened position) rfl)
      (ih' _ ((position?_add ..).trans hopened))

end BracketStack

/-- Reading a text is scanning it with an empty stack. -/
theorem Slots.read_eq_scan (text : String) :
    Slots.read text = BracketStack.scan {} 0 text.toList := by
  have hfollows := BracketStack.follows_of_position? none (Mark.scan text.toList) {} rfl
  rw [BracketStack.scan_eq_readMarks, Slots.read]
  rw [BracketStack.Follows] at hfollows
  cases hmarks : Slots.ofMarks none (Mark.scan text.toList) with
  | error e =>
    rw [hmarks] at hfollows
    exact hfollows.symm
  | ok result =>
    obtain ⟨slots, rest⟩ := result
    rw [hmarks] at hfollows
    obtain ⟨closing, hscan⟩ := hfollows
    rw [BracketStack.addAll_root] at hscan
    exact hscan.symm

/-! ### Faults -/

namespace BracketStack

theorem exists_malformed_of_onMark {stack : BracketStack} {mark : Mark} {e : PatternError}
    (h : stack.onMark mark = .error e) : ∃ position fault, e = .malformed position fault := by
  cases mark with
  | opening position => contradiction
  | word text => contradiction
  | closing position =>
    rw [onMark, closed] at h
    split at h
    · exact ⟨_, _, (Except.error.inj h).symm⟩
    · split at h
      · exact ⟨_, _, (Except.error.inj h).symm⟩
      · contradiction

theorem exists_malformed_of_readMarks {stack : BracketStack} {marks : List Mark}
    {e : PatternError} (h : stack.readMarks marks = .error e) :
    ∃ position fault, e = .malformed position fault := by
  induction marks generalizing stack with
  | nil =>
    rw [readMarks, finish] at h
    split at h
    · contradiction
    · exact ⟨_, _, (Except.error.inj h).symm⟩
  | cons mark marks ih =>
    rw [readMarks] at h
    split at h
    · next hmark =>
      cases h
      exact exists_malformed_of_onMark hmark
    · exact ih h

end BracketStack

/-- A text is refused for a fault of a bracket. -/
theorem Slots.exists_malformed_of_read {text : String} {e : PatternError}
    (h : read text = .error e) : ∃ position fault, e = .malformed position fault := by
  rw [read_eq_scan, BracketStack.scan_eq_readMarks] at h
  exact BracketStack.exists_malformed_of_readMarks h

end Ostinato
