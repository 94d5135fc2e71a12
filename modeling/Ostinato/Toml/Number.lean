import Ostinato.Binary64.Decimal
import Ostinato.Text.Digits
import Ostinato.Toml.Value

/-!
# Numbers of a settings document

A number is an integer of 64 bits, or, if it has a fraction or an exponent, a finite binary64
number. Single underscores may stand between digits. The digits of a fraction and those of another
base may begin with zeros. An integer ends with its word; behind the digits of a float what does not
announce an exponent does not count. The floats that are not finite have names.

## Main definitions

* `Toml.takeDigits`: the digits at the start of a text.
* `Toml.readInteger?`: the integer that a word denotes.
* `Toml.readFloat?`: the float with given digits.
* `Toml.Value.ofWord?`: the number that a word denotes by itself.
-/

namespace Ostinato.Toml

/-- Whether in a run of digits and underscores each underscore stands between two digits. -/
def isGrouped : List Char → Bool
  | [] => false
  | '_' :: _ => false
  | _ :: '_' :: text => isGrouped text
  | [_] => true
  | _ :: text => isGrouped text

/-- The digits of a base at the start of a text, without underscores, and what stands behind
them. -/
def takeDigits (base : Nat) (text : List Char) : Option (List Char × List Char) :=
  let isPart := fun c => c == '_' || (digitValue? base c).isSome
  if isGrouped (text.takeWhile isPart) then
    some ((text.takeWhile isPart).filter (· != '_'), text.dropWhile isPart)
  else none

/-- The digits at the start of a text, if they do not begin with a zero that could be left out. -/
def takeCount (text : List Char) : Option (List Char × List Char) :=
  (takeDigits 10 text).filter fun (digits, _) => digits = ['0'] ∨ digits.head? ≠ some '0'

/-- The digits at the start of a text, after a minus or not. -/
def takeSigned : List Char → Option (List Char × List Char)
  | '-' :: text => (takeCount text).map fun (digits, rest) => ('-' :: digits, rest)
  | text => takeCount text

/-- What is taken from a text, if nothing stands behind it. -/
def whole : Option (List Char × List Char) → Option (List Char)
  | some (digits, []) => some digits
  | _ => none

/-! ### Integers -/

/-- The base that the start of a word announces, and the digits behind it. -/
def splitBase : List Char → Option (Nat × List Char)
  | '0' :: 'x' :: digits => some (16, digits)
  | '0' :: 'o' :: digits => some (8, digits)
  | '0' :: 'b' :: digits => some (2, digits)
  | _ => none

/-- The number of 63 bits that digits of a base denote. -/
def readMagnitude? (base : Nat) (digits : List Char) : Option Nat :=
  (readBase? base digits).filter (· < 9223372036854775808)

/-- The integer of 64 bits that digits with a sign denote. -/
def readSigned? : List Char → Option Int
  | '-' :: digits =>
    ((readBase? 10 digits).filter (· ≤ 9223372036854775808)).map fun n => -(n : Int)
  | digits => (readMagnitude? 10 digits).map fun n => (n : Int)

/-- The integer that a word denotes. -/
def readInteger? (word : List Char) : Option Int :=
  match splitBase word with
  | some (base, text) => do
    let n ← readMagnitude? base (← whole (takeDigits base text))
    some (n : Int)
  | none => (whole (takeSigned word)).bind readSigned?

/-! ### Floats -/

/-- Whether a character stands before an exponent. -/
def isExponentMark (c : Char) : Bool :=
  c == 'e' || c == 'E'

/-- Whether a word has an exponent mark that is not a digit of another base. -/
def hasExponent (word : List Char) : Bool :=
  (splitBase word).isNone && word.any isExponentMark

/-- The finite float that digits with a fraction or an exponent denote. -/
def readFloat? (text : List Char) : Option Binary64 :=
  (Binary64.read? text).filter (·.isFinite)

/-- The float that a word names: an infinity, or "not a number". -/
def namedFloat? : List Char → Option Binary64
  | ['i', 'n', 'f'] => some (.infinity false)
  | ['-', 'i', 'n', 'f'] => some (.infinity true)
  | ['n', 'a', 'n'] => some .nan
  | ['-', 'n', 'a', 'n'] => some .nan
  | _ => none

/-- The number that a word denotes by itself: a named float or an integer. -/
def Value.ofWord? (word : List Char) : Option Value :=
  match namedFloat? word with
  | some number => some (.float number)
  | none => (readInteger? word).map .integer

end Ostinato.Toml
