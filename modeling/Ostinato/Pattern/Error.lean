import Ostinato.Pattern.Basic
import Ostinato.Text.Digits

/-!
# Errors of patterns

## Main definitions

* `PatternError`: why a pattern cannot be laid out, edited or read.
* `BracketFault`: what is wrong with the brackets of a text.
* `PatternError.message`: the wording.
-/

namespace Ostinato

/-- The text of a path: its indices between brackets. -/
def Path.write (path : Path) : String :=
  "[" ++ ", ".intercalate (path.map fun index => String.ofList (natDigits index)) ++ "]"

/-- What is wrong with a bracket. -/
inductive BracketFault
  | unexpectedClosing
  | emptyGroup
  | unclosed
  deriving DecidableEq

/-- The wording of a fault. -/
def BracketFault.message : BracketFault → String
  | .unexpectedClosing => "unexpected ']'"
  | .emptyGroup => "empty group"
  | .unclosed => "unclosed '['"

/-- Why a pattern is rejected: a group without slots, a path that leads nowhere, or a bracket at a
byte position of a text. -/
inductive PatternError
  | emptyGroup (path : Path)
  | invalidPath (path : Path)
  | malformed (position : Nat) (fault : BracketFault)
  deriving DecidableEq

/-- The wording of an error. -/
def PatternError.message : PatternError → String
  | .emptyGroup path => "Empty group at " ++ path.write
  | .invalidPath path => "No step or group at " ++ path.write
  | .malformed position fault =>
    "Failed to parse pattern at " ++ String.ofList (natDigits position) ++ ": " ++ fault.message

end Ostinato
