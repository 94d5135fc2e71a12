import Ostinato.Binary64.Basic

/-!
# Values of a settings document

A document in TOML is a table: a list of keys with values, in the order of the text. Keys may repeat
in the list; whoever reads a key decides whether that is allowed. Tables come about in several ways,
which decide what may still be added to them.

## Main definitions

* `Toml.Value`: the values.
* `Toml.Value.insert`: adding a value under a dotted key.
* `Toml.Section`, `Toml.Section.place`: adding what stands below a header.
-/

namespace Ostinato.Toml

/-- How a table came about: between braces, through a dotted key, because a header names a table
inside it, or through its own header. -/
inductive TableKind
  | inline
  | dotted
  | implied
  | opened
  deriving DecidableEq

/-- A value. What a date says does not matter, since no setting is a date. -/
inductive Value
  | string (text : String)
  | integer (number : Int)
  | float (number : Binary64)
  | boolean (value : Bool)
  | date
  | array (items : List Value)
  | table (kind : TableKind) (entries : List (String × Value))
  | tables (tables : List (List (String × Value)))

/-- Keys with their values. -/
abbrev Entries := List (String × Value)

namespace Value

/-- Whether two values may be items of one array. -/
def isLike : Value → Value → Bool
  | .string _, .string _ => true
  | .integer _, .integer _ => true
  | .float _, .float _ => true
  | .boolean _, .boolean _ => true
  | .date, .date => true
  | .array _, .array _ => true
  | .table _ _, .table _ _ => true
  | _, _ => false

/-- Adds a value under a dotted key. Only tables that dotted keys have made take more of them. -/
def insert (value : Value) : List String → Entries → Option Entries
  | [], _ => none
  | [key], entries => some (entries ++ [(key, value)])
  | key :: next :: keys, entries =>
    match entries.span (·.1 != key) with
    | (_, []) => (insert value (next :: keys) []).map fun inner =>
        entries ++ [(key, .table .dotted inner)]
    | (before, (_, .table .dotted inner) :: after) =>
      (insert value (next :: keys) inner).map fun inner =>
        before ++ (key, .table .dotted inner) :: after
    | _ => none

/-- Whether a value is a table, or a list of tables, that headers have made. -/
def isFromHeader : Value → Bool
  | .table .implied _ => true
  | .table .opened _ => true
  | .tables _ => true
  | _ => false

end Value

/-- A header and the entries below it. The header of a repeated section adds a table to a list of
tables; the empty header stands for the entries above all headers. -/
structure Section where
  header : List String
  isRepeated : Bool := false
  entries : Entries := []

namespace Section

/-- The value that a section starts. -/
def start (sec : Section) : Value :=
  if sec.isRepeated then .tables [sec.entries] else .table .opened sec.entries

/-- Adds a section under what is left of its header. A table that its own header has made cannot be
opened again, and only a list of tables takes another table. -/
def placeAt (sec : Section) : List String → Entries → Option Entries
  | [], entries => some (entries ++ sec.entries)
  | key :: keys, entries =>
    match entries.span (fun entry => !(entry.1 == key && entry.2.isFromHeader)) with
    | (_, []) =>
      if keys = [] then some (entries ++ [(key, sec.start)])
      else (placeAt sec keys []).map fun inner => entries ++ [(key, .table .implied inner)]
    | (before, (_, .table kind inner) :: after) =>
      if keys = [] ∧ (sec.isRepeated ∨ kind = .opened) then none
      else (placeAt sec keys inner).map fun inner => before ++ (key, .table kind inner) :: after
    | (before, (_, .tables tables) :: after) =>
      match keys, tables.getLast? with
      | [], _ =>
        if sec.isRepeated then some (before ++ (key, .tables (tables ++ [sec.entries])) :: after)
        else none
      | _ :: _, some last =>
        (placeAt sec keys last).map fun last =>
          before ++ (key, .tables (tables.dropLast ++ [last])) :: after
      | _ :: _, none => none
    | _ => none

/-- Adds a section to a document. -/
def place (entries : Entries) (sec : Section) : Option Entries :=
  sec.placeAt sec.header entries

end Section

end Ostinato.Toml
