/-!
# Log lines

## Main definitions

* `LogLevel`, `LogLine`: a text with the level at which it is logged.
-/

namespace Ostinato

/-- How much a log line matters. -/
inductive LogLevel
  | trace
  | debug
  | info
  | warn
  deriving DecidableEq

/-- The name of a level. -/
def LogLevel.write : LogLevel → String
  | .trace => "TRACE"
  | .debug => "DEBUG"
  | .info => "INFO"
  | .warn => "WARN"

/-- A line of a log. -/
structure LogLine where
  level : LogLevel
  text : String
  deriving DecidableEq

end Ostinato
