import Ostinato.Text.Digits

/-!
# Tokens of a settings document

A line ends with a line feed, before which a carriage return may stand. Texts in three quotes may
hold line ends, and then each of them counts as a line feed.

## Main definitions

* `Toml.Token`: the tokens.
* `Toml.readQuoted`: a quoted text and what stands behind it.
* `Toml.Token.scan`: the tokens of a text, if every character belongs to one. Comments are left out.

## Main results

* `Toml.readQuoted_length_lt`: a quoted text ends before what stands behind it.
-/

namespace Ostinato.Toml

/-- A token: a run of blanks, a line end, a mark, a bare word or a quoted text. -/
inductive Token
  | blank (text : List Char)
  | lineEnd
  | equals
  | period
  | comma
  | colon
  | plus
  | leftBrace
  | rightBrace
  | leftBracket
  | rightBracket
  | bare (word : List Char)
  | quoted (text : List Char) (isMultiline : Bool)
  deriving DecidableEq

/-! ### Characters -/

/-- The characters between tokens of one line. -/
def isSpace (c : Char) : Bool :=
  c == ' ' || c == '\t'

/-- The characters of bare words. -/
def isBare (c : Char) : Bool :=
  c.isAlphanum || c == '-' || c == '_'

/-- The characters of comments. -/
def isComment (c : Char) : Bool :=
  c == '\t' || ' ' ≤ c

/-- The characters that stand for themselves between double quotes. -/
def isPlain (c : Char) : Bool :=
  ' ' ≤ c && c != '\x7F'

/-- The characters between single quotes. -/
def isLiteral (c : Char) : Bool :=
  c == '\t' || isPlain c

/-! ### Line ends -/

/-- What stands behind the line end at the start of a text. -/
def afterLineEnd? : List Char → Option (List Char)
  | '\n' :: text => some text
  | '\r' :: '\n' :: text => some text
  | _ => none

/-- Leaves out the blanks and line ends at the start of a text. -/
def dropGap : List Char → List Char
  | '\r' :: '\n' :: text => dropGap text
  | c :: text => if isSpace c ∨ c = '\n' then dropGap text else c :: text
  | [] => []

/-- What goes on behind a backslash at the end of a line, behind which only blanks stand: the text
from the first character on that is neither a blank nor a line end. -/
def continueLine? (text : List Char) : Option (List Char) :=
  (afterLineEnd? (text.dropWhile isSpace)).map dropGap

theorem afterLineEnd?_length_lt {text rest : List Char} (h : afterLineEnd? text = some rest) :
    rest.length < text.length := by
  unfold afterLineEnd? at h
  grind

theorem length_dropGap_le (text : List Char) : (dropGap text).length ≤ text.length := by
  fun_induction dropGap text with grind

theorem continueLine?_length_lt {text rest : List Char} (h : continueLine? text = some rest) :
    rest.length < text.length := by
  obtain ⟨line, hline, rfl⟩ := Option.map_eq_some_iff.1 h
  exact Nat.lt_of_le_of_lt (length_dropGap_le line)
    (Nat.lt_of_lt_of_le (afterLineEnd?_length_lt hline) (List.dropWhile_suffix _).length_le)

/-! ### Escapes -/

/-- The character with a hexadecimal code. -/
def charOfHex? (digits : List Char) : Option Char :=
  ((readBase? 16 digits).filter (decide <| ·.isValidChar)).map Char.ofNat

/-- The character that an escape of one letter stands for. -/
def escaped? : Char → Option Char
  | '"' => some '"'
  | '\\' => some '\\'
  | 'b' => some '\x08'
  | 'f' => some '\x0C'
  | 'n' => some '\n'
  | 'r' => some '\r'
  | 't' => some '\t'
  | _ => none

/-- Reads the escape of which the backslash has been read: the character that it stands for, and
what stands behind it. -/
def readEscape : List Char → Option (Char × List Char)
  | 'u' :: a :: b :: c :: d :: rest => (charOfHex? [a, b, c, d]).map (·, rest)
  | 'U' :: a :: b :: c :: d :: e :: f :: g :: h :: rest =>
    (charOfHex? [a, b, c, d, e, f, g, h]).map (·, rest)
  | c :: rest => (escaped? c).map (·, rest)
  | [] => none

theorem readEscape_length_lt {text rest : List Char} {c : Char}
    (h : readEscape text = some (c, rest)) : rest.length < text.length := by
  unfold readEscape at h
  split at h <;> simp only [Option.map_eq_some_iff, Prod.mk.injEq, reduceCtorEq] at h <;>
    obtain ⟨_, _, _, rfl⟩ := h <;> simp +arith

/-! ### Quoted texts

Each reader is given what stands behind the opening quotes and the text read so far with its last
character first, and gives the whole text and what stands behind the closing quotes. -/

/-- Reads to a single quote. -/
def readLiteral (read : List Char) : List Char → Option (List Char × List Char)
  | [] => none
  | '\'' :: rest => some (read.reverse, rest)
  | c :: rest => if isLiteral c then readLiteral (c :: read) rest else none

/-- Reads to a double quote. -/
def readBasic (read : List Char) (text : List Char) : Option (List Char × List Char) :=
  match text with
  | [] => none
  | '"' :: rest => some (read.reverse, rest)
  | '\\' :: rest =>
    match _h : readEscape rest with
    | some (c, rest) => readBasic (c :: read) rest
    | none => none
  | c :: rest => if isPlain c then readBasic (c :: read) rest else none
termination_by text.length
decreasing_by
  · exact Nat.lt_succ_of_lt (readEscape_length_lt _h)
  · simp

/-- What two quotes stand for between three of them: themselves, as long as the text is read as it
is written, and one quote behind an escape or a line end of two characters. -/
def quotePair (quote : Char) (isVerbatim : Bool) : List Char :=
  if isVerbatim then [quote, quote] else [quote]

/-- Reads to three single quotes, over line ends. -/
def readLiteralLines (isVerbatim : Bool) (read : List Char) :
    List Char → Option (List Char × List Char)
  | [] => none
  | '\'' :: '\'' :: '\'' :: rest => some (read.reverse, rest)
  | '\'' :: '\'' :: rest => readLiteralLines isVerbatim (quotePair '\'' isVerbatim ++ read) rest
  | '\r' :: '\n' :: rest => readLiteralLines false ('\n' :: read) rest
  | c :: rest =>
    if c = '\n' ∨ isLiteral c then readLiteralLines isVerbatim (c :: read) rest else none

/-- Reads to three double quotes, over line ends. A backslash at the end of a line takes the blanks
and line ends behind it away. -/
def readBasicLines (isVerbatim : Bool) (read text : List Char) : Option (List Char × List Char) :=
  match text with
  | [] => none
  | '"' :: '"' :: '"' :: rest => some (read.reverse, rest)
  | '"' :: '"' :: rest => readBasicLines isVerbatim (quotePair '"' isVerbatim ++ read) rest
  | '\r' :: '\n' :: rest => readBasicLines false ('\n' :: read) rest
  | '\\' :: rest =>
    match _h : continueLine? rest with
    | some rest => readBasicLines false read rest
    | none =>
      match _h : readEscape rest with
      | some (c, rest) => readBasicLines false (c :: read) rest
      | none => none
  | c :: rest =>
    if c = '\n' ∨ isPlain c then readBasicLines isVerbatim (c :: read) rest else none
termination_by text.length
decreasing_by
  · simp +arith
  · simp +arith
  · exact Nat.lt_succ_of_lt (continueLine?_length_lt _h)
  · exact Nat.lt_succ_of_lt (readEscape_length_lt _h)
  · simp

/-- Leaves out a line end at the start of a text. -/
def dropFirstLineEnd (text : List Char) : List Char :=
  (afterLineEnd? text).getD text

/-- Reads a quoted text of which the first quote has been read. -/
def readQuoted : Char → List Char → Option (Token × List Char)
  | '\'', '\'' :: '\'' :: text =>
    (readLiteralLines true [] (dropFirstLineEnd text)).map fun (t, rest) => (.quoted t true, rest)
  | '\'', text => (readLiteral [] text).map fun (t, rest) => (.quoted t false, rest)
  | '"', '"' :: '"' :: text =>
    (readBasicLines true [] (dropFirstLineEnd text)).map fun (t, rest) => (.quoted t true, rest)
  | '"', text => (readBasic [] text).map fun (t, rest) => (.quoted t false, rest)
  | _, _ => none

theorem readLiteral_length_lt {read text t rest : List Char}
    (h : readLiteral read text = some (t, rest)) : rest.length < text.length := by
  fun_induction readLiteral read text with grind

theorem readBasic_length_lt {read text t rest : List Char}
    (h : readBasic read text = some (t, rest)) : rest.length < text.length := by
  fun_induction readBasic read text with grind [→ readEscape_length_lt]

theorem readLiteralLines_length_lt {isVerbatim : Bool} {read text t rest : List Char}
    (h : readLiteralLines isVerbatim read text = some (t, rest)) : rest.length < text.length := by
  fun_induction readLiteralLines isVerbatim read text with grind

theorem readBasicLines_length_lt {isVerbatim : Bool} {read text t rest : List Char}
    (h : readBasicLines isVerbatim read text = some (t, rest)) : rest.length < text.length := by
  fun_induction readBasicLines isVerbatim read text with
    grind [→ readEscape_length_lt, → continueLine?_length_lt]

theorem length_dropFirstLineEnd_le (text : List Char) :
    (dropFirstLineEnd text).length ≤ text.length := by
  unfold dropFirstLineEnd
  cases h : afterLineEnd? text with
  | none => exact Nat.le_refl _
  | some rest => exact Nat.le_of_lt (afterLineEnd?_length_lt h)

/-- A quoted text ends before what stands behind it. -/
theorem readQuoted_length_lt {c : Char} {text rest : List Char} {token : Token}
    (h : readQuoted c text = some (token, rest)) : rest.length < text.length := by
  have hdrop := length_dropFirstLineEnd_le
  unfold readQuoted at h
  split at h <;> simp only [Option.map_eq_some_iff, Prod.mk.injEq, reduceCtorEq] at h
  · obtain ⟨p, hp, -, rfl⟩ := h
    exact Nat.lt_of_lt_of_le (readLiteralLines_length_lt hp)
      (Nat.le_trans (hdrop _) (by simp +arith))
  · obtain ⟨p, hp, -, rfl⟩ := h
    exact readLiteral_length_lt hp
  · obtain ⟨p, hp, -, rfl⟩ := h
    exact Nat.lt_of_lt_of_le (readBasicLines_length_lt hp)
      (Nat.le_trans (hdrop _) (by simp +arith))
  · obtain ⟨p, hp, -, rfl⟩ := h
    exact readBasic_length_lt hp

namespace Token

/-- Whether a token is a run of blanks. -/
def isBlank : Token → Bool
  | .blank _ => true
  | _ => false

/-- The token of a mark. -/
def ofMark? : Char → Option Token
  | '\n' => some .lineEnd
  | '=' => some .equals
  | '.' => some .period
  | ',' => some .comma
  | ':' => some .colon
  | '+' => some .plus
  | '{' => some .leftBrace
  | '}' => some .rightBrace
  | '[' => some .leftBracket
  | ']' => some .rightBracket
  | _ => none

/-- The tokens of a text without a byte order mark. -/
def scanPlain (text : List Char) : Option (List Token) :=
  match text with
  | [] => some []
  | '\r' :: '\n' :: text => (scanPlain text).map (.lineEnd :: ·)
  | c :: text =>
    match ofMark? c with
    | some token => (scanPlain text).map (token :: ·)
    | none =>
      if isSpace c then
        (scanPlain (text.dropWhile isSpace)).map (.blank (c :: text.takeWhile isSpace) :: ·)
      else if c = '#' then scanPlain (text.dropWhile isComment)
      else if isBare c then
        (scanPlain (text.dropWhile isBare)).map (.bare (c :: text.takeWhile isBare) :: ·)
      else
        match _h : readQuoted c text with
        | some (token, rest) => (scanPlain rest).map (token :: ·)
        | none => none
termination_by text.length
decreasing_by
  · simp +arith
  · simp
  · exact Nat.lt_succ_of_le (List.dropWhile_suffix _).length_le
  · exact Nat.lt_succ_of_le (List.dropWhile_suffix _).length_le
  · exact Nat.lt_succ_of_le (List.dropWhile_suffix _).length_le
  · exact Nat.lt_succ_of_lt (readQuoted_length_lt _h)

/-- The tokens of a text, of which a byte order mark at the start does not count. -/
def scan : List Char → Option (List Token)
  | '\uFEFF' :: text => scanPlain text
  | text => scanPlain text

end Token

end Ostinato.Toml
