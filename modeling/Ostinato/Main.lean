import Ostinato.Player.Basic
import Ostinato.Settings.Reader

/-!
# The player on the command line

Plays what a settings file describes, in real time. The file is the first argument, or
`player.toml`. What the player makes known is printed, traces apart.
-/

namespace Ostinato.CommandLine

/-- Prints a line, unless it is a trace. -/
def printLine (line : LogLine) : IO Unit :=
  if line.level = .trace then pure () else IO.println (line.level.write ++ " - " ++ line.text)

/-- Prints the lines of events. -/
def printEvents (events : List PlayerEvent) : IO Unit :=
  (events.flatMap PlayerEvent.lines).forM printLine

/-- Stops with a message. -/
def fail {α : Type} (message : String) : IO α :=
  throw (IO.userError message)

/-- The bytes of a file, if it can be read. -/
def bytesOf (path : String) : IO (Option ByteArray) :=
  try
    return some (← IO.FS.readBinFile path)
  catch _ =>
    return none

/-- Reads the clock until the player is finished or its time is over. -/
partial def playOn (origin : Nat) (player : Player SplitMix) : IO (Player SplitMix) := do
  IO.sleep (UInt32.ofNat (max 1 (player.tick.val / 1000000)))
  let elapsed := (← IO.monoNanosNow) - origin
  let (player, events) := player.advance elapsed
  printEvents events
  if player.duration.val ≤ elapsed then return player
  else if player.isFinished then
    printEvents [.finished]
    return player
  else playOn origin player

/-- Plays the settings in a file. -/
def play (path : String) : IO Unit := do
  printLine ⟨.info, "Loading player configuration from " ++ path ++ " ..."⟩
  match (textOfFile (← bytesOf path)).bind SessionSettings.read with
  | .error e => fail e.message
  | .ok settings =>
    printLine ⟨.info, "Initialising the player ..."⟩
    let draws : SplitMix := ⟨UInt64.ofNat (← IO.monoNanosNow)⟩
    let (made, events) := Player.ofSettings settings "console" draws
    printEvents events
    match made with
    | .error e => fail e.message
    | .ok player =>
      printEvents [.playing player.duration]
      let origin ← IO.monoNanosNow
      match player.start with
      | .error e => fail e.message
      | .ok (player, events) =>
        printEvents events
        let (_, events) := (← playOn origin player).close
        printEvents events

end Ostinato.CommandLine

def main (args : List String) : IO Unit :=
  Ostinato.CommandLine.play (args.head?.getD "player.toml")
