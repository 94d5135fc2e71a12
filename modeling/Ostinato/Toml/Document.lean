import Ostinato.Toml.Number
import Ostinato.Toml.Token
import Ostinato.Toml.Value

/-!
# Reading a settings document

A document is read line by line: a header starts a section, a key with a value adds an entry to it.
Each reader takes tokens from the front and says how many it leaves, so that all of them end.

## Main definitions

* `Toml.Found`: what a reader finds, and the tokens behind it, which are fewer.
* `Toml.findKeys`, `Toml.findValue`, `Toml.findHeader`: the readers.
* `Toml.read?`: the entries of a document.
-/

namespace Ostinato.Toml

/-- What a reader finds at the front of some tokens, and the tokens behind it. -/
structure Found (α : Type) (tokens : List Token) where
  result : α
  rest : List Token
  rest_lt : rest.length < tokens.length

/-- The same find, seen from tokens of which some lie before it. -/
def Found.behind {α : Type} {before tokens : List Token} (found : Found α tokens)
    (h : tokens.length ≤ before.length) : Found α before :=
  ⟨found.result, found.rest, Nat.lt_of_lt_of_le found.rest_lt h⟩

/-- The tokens from the first on that is not a blank. -/
def skipBlanks (tokens : List Token) : List Token :=
  tokens.dropWhile Token.isBlank

/-- The tokens from the first on that is neither a blank nor a line end. -/
def skipGaps (tokens : List Token) : List Token :=
  tokens.dropWhile fun token => token.isBlank ∨ token = .lineEnd

theorem length_skipBlanks_le (tokens : List Token) : (skipBlanks tokens).length ≤ tokens.length :=
  (List.dropWhile_suffix _).length_le

theorem length_skipGaps_le (tokens : List Token) : (skipGaps tokens).length ≤ tokens.length :=
  (List.dropWhile_suffix _).length_le

grind_pattern length_skipBlanks_le => skipBlanks tokens
grind_pattern length_skipGaps_le => skipGaps tokens

/-! ### Keys -/

/-- The key that a token is: a bare word, or a quoted text that is not empty and has one line. -/
def keyOf? : Token → Option String
  | .bare word => some (String.ofList word)
  | .quoted (c :: text) false => some (String.ofList (c :: text))
  | _ => none

/-- Finds keys with periods between them, and blanks anywhere. -/
def findKeys : (tokens : List Token) → Option (Found (List String) tokens)
  | [] => none
  | token :: tokens => do
    let key ← keyOf? token
    match h : skipBlanks tokens with
    | .period :: rest =>
      let ⟨keys, rest, hrest⟩ ← findKeys (skipBlanks rest)
      some ⟨key :: keys, rest, by grind⟩
    | rest => some ⟨[key], rest, by grind⟩
termination_by tokens => tokens.length
decreasing_by grind

/-! ### Numbers and dates -/

/-- Finds the exponent that stands behind digits, where the rest of their word is given: none if no
mark announces one. Behind a plus its digits have a word of their own. -/
def findExponent (suffix : List Char) (tokens : List Token) :
    Option (List Char × { rest : List Token // rest.length ≤ tokens.length }) :=
  match suffix with
  | [] => some ([], ⟨tokens, Nat.le_refl _⟩)
  | mark :: text =>
    if isExponentMark mark then
      match text, tokens with
      | [], .plus :: .bare word :: rest =>
        (whole (takeCount word)).map fun digits => (mark :: digits, ⟨rest, by simp +arith⟩)
      | text, rest =>
        (whole (takeSigned text)).map fun digits => (mark :: digits, ⟨rest, Nat.le_refl _⟩)
    else some ([], ⟨tokens, Nat.le_refl _⟩)

/-- Finds the float of which some digits are given, and the rest of their word. -/
def findFloat (digits suffix : List Char) (tokens : List Token) :
    Option (Value × { rest : List Token // rest.length ≤ tokens.length }) := do
  let (exponent, rest) ← findExponent suffix tokens
  let number ← readFloat? (digits ++ exponent)
  some (.float number, rest)

/-- Finds the number that starts with a word: its fraction has a word of its own. -/
def findNumeral (word : List Char) (tokens : List Token) :
    Option (Found Value (.bare word :: tokens)) :=
  if hasExponent word then do
    let (digits, suffix) ← takeSigned word
    let (value, rest) ← findFloat digits suffix tokens
    some ⟨value, rest, Nat.lt_succ_of_le rest.2⟩
  else
    match tokens with
    | .period :: .bare text :: tokens => do
      let digits ← whole (takeSigned word)
      let (fraction, suffix) ← takeDigits 10 text
      let (value, rest) ← findFloat (digits ++ '.' :: fraction) suffix tokens
      some ⟨value, rest, Nat.lt_succ_of_le (Nat.le_succ_of_le (Nat.le_succ_of_le rest.2))⟩
    | tokens => (Value.ofWord? word).map fun value => ⟨value, tokens, Nat.lt_succ_self _⟩

/-- Whether a word has a small exponent mark with a minus behind it. -/
def hasMinusExponent : List Char → Bool
  | 'e' :: '-' :: _ => true
  | _ :: word => hasMinusExponent word
  | [] => false

/-- Whether a word is a date. -/
def isDate (word : List Char) : Bool :=
  word.contains 'T' || (word.drop 1).contains '-' && !hasMinusExponent word

/-- Leaves out the hour that a single space parts from its date. -/
def skipHour : List Token → List Token
  | .blank [' '] :: .bare _ :: rest => rest
  | tokens => tokens

/-- Leaves out a mark and the word behind it, if the mark is there. -/
def skipPart (mark : Token) : List Token → Option (List Token)
  | token :: rest =>
    if token = mark then
      match rest with
      | .bare _ :: rest => some rest
      | _ => none
    else some (token :: rest)
  | [] => some []

/-- Leaves out what may stand behind the hour of a date: minutes and seconds, a fraction, and how
far the clock is ahead. -/
def skipTime : List Token → Option (List Token)
  | .colon :: .bare _ :: .colon :: .bare _ :: rest => do
    skipPart .colon (← skipPart .plus (← skipPart .period rest))
  | .colon :: _ => none
  | tokens => some tokens

theorem length_skipHour_le (tokens : List Token) : (skipHour tokens).length ≤ tokens.length := by
  unfold skipHour
  split <;> simp +arith

theorem length_le_of_skipPart {mark : Token} {tokens rest : List Token}
    (h : skipPart mark tokens = some rest) : rest.length ≤ tokens.length := by
  unfold skipPart at h
  grind

theorem length_le_of_skipTime {tokens rest : List Token} (h : skipTime tokens = some rest) :
    rest.length ≤ tokens.length := by
  unfold skipTime at h
  split at h
  · simp only [Option.bind_eq_bind, Option.bind_eq_some_iff] at h
    obtain ⟨first, hfirst, second, hsecond, hlast⟩ := h
    have := length_le_of_skipPart hfirst
    have := length_le_of_skipPart hsecond
    have := length_le_of_skipPart hlast
    grind
  · cases h
  · grind

/-- Finds the value that starts with a word: a truth value, a date, a time of day or a number. -/
def findPlain (word : List Char) (tokens : List Token) :
    Option (Found Value (.bare word :: tokens)) :=
  if word = ['t', 'r', 'u', 'e'] then some ⟨.boolean true, tokens, by simp⟩
  else if word = ['f', 'a', 'l', 's', 'e'] then some ⟨.boolean false, tokens, by simp⟩
  else if isDate word ∨ tokens.head? = some .colon then
    match h : skipTime (skipHour tokens) with
    | some rest => some ⟨.date, rest, by
        have := length_le_of_skipTime h
        have := length_skipHour_le tokens
        grind⟩
    | none => none
  else findNumeral word tokens

/-! ### Values -/

/-- Whether all values of a list may be items of one array. -/
def areAlike : List Value → Bool
  | [] => true
  | item :: items => items.all (Value.isLike item)

mutual

/-- Finds a value. -/
def findValue : (tokens : List Token) → Option (Found Value tokens)
  | .quoted text _ :: rest => some ⟨.string (String.ofList text), rest, by simp⟩
  | .bare word :: rest => findPlain word rest
  | .plus :: .bare word :: rest => (findNumeral word rest).map (·.behind (by simp))
  | .leftBracket :: rest => do
    let ⟨items, rest, h⟩ ← findItems rest
    if areAlike items then some ⟨.array items, rest, Nat.lt_succ_of_lt h⟩ else none
  | .leftBrace :: rest =>
    match _h : skipBlanks rest with
    | .rightBrace :: after => some ⟨.table .inline [], after, by grind⟩
    | _ => do
      let ⟨entries, after, h⟩ ← findEntries [] (skipBlanks rest)
      some ⟨.table .inline entries, after, by grind⟩
  | _ => none
termination_by tokens => 2 * tokens.length
decreasing_by all_goals grind

/-- Finds the items of an array up to its closing bracket. -/
def findItems (tokens : List Token) : Option (Found (List Value) tokens) :=
  match h : skipGaps tokens with
  | .rightBracket :: rest => some ⟨[], rest, by grind⟩
  | _ => do
    let ⟨item, rest, hitem⟩ ← findValue (skipGaps tokens)
    match hrest : skipGaps rest with
    | .rightBracket :: after => some ⟨[item], after, by grind⟩
    | .comma :: after => do
      let ⟨items, last, hitems⟩ ← findItems after
      some ⟨item :: items, last, by grind⟩
    | _ => none
termination_by 2 * tokens.length + 1
decreasing_by all_goals grind

/-- Finds the entries of an inline table up to its closing brace, after the ones already read. -/
def findEntries (read : Entries) (tokens : List Token) : Option (Found Entries tokens) := do
  let ⟨keys, rest, hkeys⟩ ← findKeys tokens
  match hrest : rest with
  | .equals :: rest =>
    let ⟨value, after, hvalue⟩ ← findValue (skipBlanks rest)
    let entries ← value.insert keys read
    match hafter : skipBlanks after with
    | .rightBrace :: last => some ⟨entries, last, by grind⟩
    | .comma :: more => do
      let ⟨entries, last, hmore⟩ ← findEntries entries (skipBlanks more)
      some ⟨entries, last, by grind⟩
    | _ => none
  | _ => none
termination_by 2 * tokens.length
decreasing_by all_goals grind

end

/-! ### Lines -/

/-- A line that is not blank: a header or an entry. -/
inductive Line
  | header (sec : Section)
  | entry (keys : List String) (value : Value)

/-- Takes the end of a line, or of the document, behind what is found. -/
def Found.endLine {α : Type} {tokens : List Token} (found : Found α tokens) :
    Option (Found α tokens) :=
  have hrest := found.rest_lt
  match _h : skipBlanks found.rest with
  | [] => some ⟨found.result, [], by grind⟩
  | .lineEnd :: rest => some ⟨found.result, rest, by grind⟩
  | _ => none

/-- Finds a header between brackets, or between double brackets if its section is repeated. -/
def findHeader : (tokens : List Token) → Option (Found Line tokens)
  | .leftBracket :: .leftBracket :: rest => do
    let ⟨header, after, _⟩ ← findKeys (skipBlanks rest)
    match _h : after with
    | .rightBracket :: .rightBracket :: last =>
      some ⟨.header { header, isRepeated := true }, last, by grind⟩
    | _ => none
  | .leftBracket :: rest => do
    let ⟨header, after, _⟩ ← findKeys (skipBlanks rest)
    match _h : after with
    | .rightBracket :: last => some ⟨.header { header }, last, by grind⟩
    | _ => none
  | _ => none

/-- Finds a key with a value. -/
def findEntry (tokens : List Token) : Option (Found Line tokens) := do
  let ⟨keys, rest, _⟩ ← findKeys tokens
  match _h : rest with
  | .equals :: rest =>
    let ⟨value, last, _⟩ ← findValue (skipBlanks rest)
    some ⟨.entry keys value, last, by grind⟩
  | _ => none

/-- Finds a header or an entry, and the end of its line. -/
def findLine : (tokens : List Token) → Option (Found Line tokens)
  | .leftBracket :: rest => (findHeader (.leftBracket :: rest)).bind Found.endLine
  | tokens => (findEntry tokens).bind Found.endLine

/-- Reads the sections of a document, of which the first is given as far as it has been read. -/
def readSections (sec : Section) (tokens : List Token) : Option (List Section) :=
  match _h : skipGaps tokens with
  | [] => some [sec]
  | token :: rest => do
    let ⟨line, rest, _⟩ ← findLine (token :: rest)
    match line with
    | .header next => (readSections next rest).map (sec :: ·)
    | .entry keys value => readSections { sec with entries := ← value.insert keys sec.entries } rest
termination_by tokens.length
decreasing_by all_goals grind

/-- The entries of a document. -/
def read? (text : String) : Option Entries := do
  let sections ← readSections { header := [] } (← Token.scan text.toList)
  sections.foldlM Section.place []

end Ostinato.Toml
