import Ostinato.Pattern.Error
import Ostinato.Text.Blank

/-!
# Mini-notation

Patterns are written as words and brackets: `C4 [E4 G4] ~` has a sound, a group of two sounds and a
silent slot. Words are set apart by blanks and brackets. The words `~` and `_` are silent slots,
every other word is a sound, and brackets enclose the slots of a group, of which there is at least
one.

## Main definitions

* `Mark`: a bracket, with its byte position, or a word.
* `Mark.scan`: the marks of a text.
* `Slots.ofMarks`: the slots up to the bracket that closes their group.
* `Slots.read`: the pattern that a text denotes.
-/

namespace Ostinato

/-- A bracket at a byte position, or a word. -/
inductive Mark
  | opening (position : Nat)
  | closing (position : Nat)
  | word (text : List Char)
  deriving DecidableEq

namespace Mark

/-- Puts a word, of which the last character comes first, in front of marks, unless it is empty. -/
def consWord (reversed : List Char) (marks : List Mark) : List Mark :=
  if reversed = [] then marks else .word reversed.reverse :: marks

/-- The marks of the rest of a text. The rest starts at a byte position, and the word that ends
there is given with its last character first. -/
def scanFrom (position : Nat) (reversed : List Char) : List Char → List Mark
  | [] => consWord reversed []
  | c :: text =>
    let rest := position + c.utf8Size
    if c = '[' then consWord reversed (.opening position :: scanFrom rest [] text)
    else if c = ']' then consWord reversed (.closing position :: scanFrom rest [] text)
    else if isBlank c then consWord reversed (scanFrom rest [] text)
    else scanFrom rest (c :: reversed) text

/-- The marks of a text. -/
def scan (text : List Char) : List Mark :=
  scanFrom 0 [] text

end Mark

/-- The slot that a word stands for. -/
def Pattern.ofWord (text : List Char) : Pattern String :=
  if text = ['~'] ∨ text = ['_'] then .silence else .sound (String.ofList text)

namespace Slots

/-- Reads slots up to the bracket that closes their group, or up to the end for the root, and gives
the marks behind them. `opened` is the position of the bracket that opens the group. -/
def ofMarks (opened : Option Nat) (marks : List Mark) :
    Except PatternError (Slots String × { rest : List Mark // rest.length ≤ marks.length }) :=
  match marks with
  | [] =>
    match opened with
    | some position => .error (.malformed position .unclosed)
    | none => .ok ([], ⟨[], Nat.le_refl _⟩)
  | .closing position :: marks =>
    match opened with
    | some _ => .ok ([], ⟨marks, Nat.le_succ _⟩)
    | none => .error (.malformed position .unexpectedClosing)
  | .word text :: marks =>
    match ofMarks opened marks with
    | .error e => .error e
    | .ok (slots, ⟨rest, h⟩) => .ok (.ofWord text :: slots, ⟨rest, Nat.le_succ_of_le h⟩)
  | .opening position :: marks =>
    match ofMarks (some position) marks with
    | .error e => .error e
    | .ok ([], _) => .error (.malformed position .emptyGroup)
    | .ok (child :: children, ⟨rest, h⟩) =>
      match ofMarks opened rest with
      | .error e => .error e
      | .ok (slots, ⟨rest', h'⟩) =>
        .ok (.group (child :: children) :: slots, ⟨rest', Nat.le_succ_of_le (Nat.le_trans h' h)⟩)
termination_by marks.length

/-- The pattern that a text denotes. -/
def read (text : String) : Except PatternError (Slots String) :=
  (ofMarks none (Mark.scan text.toList)).map Prod.fst

end Slots

end Ostinato
