import Ostinato.Settings.Basic
import Ostinato.Toml.Document

/-!
# Reading settings

Settings are read from a document. A section is a table; it may also be written as an array of its
fields in order. What is left out has its default, and unknown keys do not matter, but a known key
must not appear twice.

## Main definitions

* `Toml.Value.fields?`: the values of the fields of a section.
* `Settings.read`, `SessionSettings.read`: reading a text.
* `textOfFile`: the text of a file.
* `SettingsError`: why there are no settings.
-/

namespace Ostinato

namespace Toml

/-- The value under a key, if there is one, unless there are several. -/
def Entries.field? (entries : Entries) (key : String) : Option (Option Value) :=
  match entries.filter (·.1 = key) with
  | [] => some none
  | [entry] => some (some entry.2)
  | _ => none

namespace Value

/-- The values of the fields with the given keys: those under the keys in a table, the items of an
array in order, and none in a date. -/
def fields? (keys : List String) : Value → Option (List (Option Value))
  | .table _ entries => keys.mapM (Entries.field? entries)
  | .array items =>
    if items.length ≤ keys.length then
      some (items.map some ++ List.replicate (keys.length - items.length) none)
    else none
  | .date => some (keys.map fun _ => none)
  | _ => none

/-- A value as a number up to a limit. -/
def toCount? (limit : Nat) : Value → Option Nat
  | .integer n => if 0 ≤ n ∧ n ≤ limit then some n.toNat else none
  | _ => none

/-- A value as a number of eight bits. -/
def toUInt8? (value : Value) : Option UInt8 :=
  (value.toCount? (UInt8.size - 1)).map UInt8.ofNat

/-- A value as a number of sixteen bits. -/
def toUInt16? (value : Value) : Option UInt16 :=
  (value.toCount? (UInt16.size - 1)).map UInt16.ofNat

/-- A value as a floating-point number; an integer is rounded. -/
def toFloat? : Value → Option Binary64
  | .integer n => some (Binary64.ofInt n)
  | .float x => some x
  | _ => none

/-- A value as a truth value. -/
def toBool? : Value → Option Bool
  | .boolean value => some value
  | _ => none

/-- A value as a text. -/
def toText? : Value → Option String
  | .string text => some text
  | _ => none

/-- A value as a loop mode: a truth value or a number of times. -/
def toLoopMode? : Value → Option LoopMode
  | .boolean value => some (.ofBool value)
  | value => (value.toCount? (UInt32.size - 1)).map fun n => .count (UInt32.ofNat n)

/-- A value as a setting for deviations: a truth value or a written duration. -/
def toHumanize? : Value → Option HumanizeSetting
  | .boolean value => some (.switch value)
  | .string text => some (.amount text)
  | _ => none

end Value

end Toml

open Toml (Value)

/-- What a field holds, or what holds by default if it is left out. -/
def fieldOr {α : Type} (default : α) (read : Value → Option α) : Option Value → Option α
  | none => some default
  | some value => read value

/-- The section for the meter that a value denotes. -/
def TimingSettings.ofValue? (value : Value) : Option TimingSettings :=
  let standard : TimingSettings := {}
  match value.fields? ["tempo", "num_beats", "note_value"] with
  | some [tempo, beats, noteValue] => do
    return {
      tempo := ← fieldOr standard.tempo Value.toUInt16? tempo
      beats := ← fieldOr standard.beats Value.toUInt8? beats
      noteValue := ← fieldOr standard.noteValue Value.toUInt8? noteValue }
  | _ => none

/-- The section for a sequence that a value denotes. -/
def SequenceSettings.ofValue? (value : Value) : Option SequenceSettings :=
  let standard : SequenceSettings := {}
  match value.fields? ["subdivision", "loop", "loop_start", "loop_end", "playback_rate",
    "probability", "humanize", "mute"] with
  | some [subdivision, loop, loopStart, loopEnd, rate, probability, humanize, mute] => do
    return {
      subdivision := ← fieldOr standard.subdivision Value.toText? subdivision
      loop := ← fieldOr standard.loop Value.toLoopMode? loop
      loopStart := ← fieldOr standard.loopStart (Value.toCount? maxCount) loopStart
      loopEnd := ← fieldOr standard.loopEnd (Value.toCount? maxCount) loopEnd
      rate := ← fieldOr standard.rate Value.toFloat? rate
      probability := ← fieldOr standard.probability Value.toFloat? probability
      humanize := ← fieldOr standard.humanize Value.toHumanize? humanize
      mute := ← fieldOr standard.mute Value.toBool? mute }
  | _ => none

/-- The section for a player that a value denotes. -/
def PlayerSettings.ofValue? (value : Value) : Option PlayerSettings :=
  let standard : PlayerSettings := {}
  match value.fields? ["pattern", "duration", "tick"] with
  | some [pattern, duration, tick] => do
    return {
      pattern := ← fieldOr standard.pattern Value.toText? pattern
      duration := ← fieldOr standard.duration Value.toText? duration
      tick := ← fieldOr standard.tick Value.toText? tick }
  | _ => none

/-- Why there are no settings: the file cannot be read as text, or the text does not denote any. -/
inductive SettingsError
  | unreadable
  | malformed
  deriving DecidableEq

/-- The wording of an error. -/
def SettingsError.message : SettingsError → String
  | .unreadable => "The settings are not in a readable file"
  | .malformed => "The settings are malformed"

/-- The settings that the entries of a document denote. -/
def Settings.ofEntries? (entries : Toml.Entries) : Option Settings := do
  return {
    timing := ← fieldOr {} TimingSettings.ofValue? (← entries.field? "timing")
    sequence := ← fieldOr {} SequenceSettings.ofValue? (← entries.field? "sequence") }

/-- The settings that the entries of a document denote, with the section for the player. -/
def SessionSettings.ofEntries? (entries : Toml.Entries) : Option SessionSettings := do
  return {
    toSettings := ← Settings.ofEntries? entries
    player := ← fieldOr {} PlayerSettings.ofValue? (← entries.field? "player") }

/-- Reads settings from a text. -/
def Settings.read (text : String) : Except SettingsError Settings :=
  match (Toml.read? text).bind ofEntries? with
  | some settings => .ok settings
  | none => .error .malformed

/-- Reads the settings of a session from a text. -/
def SessionSettings.read (text : String) : Except SettingsError SessionSettings :=
  match (Toml.read? text).bind ofEntries? with
  | some settings => .ok settings
  | none => .error .malformed

/-- The text of a file, of which the bytes are given if it is there. -/
def textOfFile (bytes : Option ByteArray) : Except SettingsError String :=
  match bytes.bind String.fromUTF8? with
  | some text => .ok text
  | none => .error .unreadable

end Ostinato
