/-!
# Logs

A log takes lines of the levels up to its threshold.  The only lines there are report, at the
level `debug`, a plain write that a lock refused.
-/

namespace AttributeStore

/-- The levels of a log from the narrowest to the widest, `off` admitting nothing. -/
inductive Level where
  /-- Admits no line. -/
  | off
  /-- Reports failures. -/
  | error
  /-- Reports what may become a failure. -/
  | warn
  /-- Reports the course of events. -/
  | info
  /-- Reports what helps to find a mistake. -/
  | debug
  /-- Reports every step. -/
  | trace
deriving DecidableEq

namespace Level

/-- The place of a level among all. -/
def rank : Level → Nat
  | off => 0
  | error => 1
  | warn => 2
  | info => 3
  | debug => 4
  | trace => 5

/-- Whether a threshold lets lines of a level pass. -/
def admits (threshold level : Level) : Bool := level.rank ≤ threshold.rank

/-- The name of a level, as lines show it. -/
def name : Level → String
  | off => "OFF"
  | error => "ERROR"
  | warn => "WARN"
  | info => "INFO"
  | debug => "DEBUG"
  | trace => "TRACE"

/-- The level with a lower-case name. -/
def ofName? : String → Option Level
  | "off" => some off
  | "error" => some error
  | "warn" => some warn
  | "info" => some info
  | "debug" => some debug
  | "trace" => some trace
  | _ => none

end Level

/-- A line of a log. -/
structure LogLine where
  /-- The level of the line. -/
  level : Level
  /-- What the line is about. -/
  target : String
  /-- The part of the program that wrote the line. -/
  component : String
  /-- The message. -/
  text : String
deriving DecidableEq

/-- The line that reports a plain write to a locked key. -/
def LogLine.refusal (key : String) : LogLine where
  level := .debug
  target := "attrmap::map"
  component := "attrmap::map::write"
  text := "Attempt to overwrite locked attribute with key '" ++ key ++ "'"

/-- A log that keeps its lines. -/
structure Log where
  /-- The widest level that is taken. -/
  threshold : Level
  /-- The lines taken so far, the oldest first. -/
  lines : List LogLine

namespace Log

variable (log : Log)

/-- Takes a line if its level passes. -/
def add (line : LogLine) : Log :=
  if log.threshold.admits line.level then { log with lines := log.lines ++ [line] } else log

/-- The log without its lines. -/
def emptied : Log := { log with lines := [] }

end Log

/-- The log of all maps that have none of their own, behind a second threshold. -/
structure SharedLog where
  /-- The widest level that is passed on. -/
  maximum : Level
  /-- The log itself. -/
  log : Log

namespace SharedLog

/-- The shared log before it is set up: nothing is passed on. -/
def initial : SharedLog := { maximum := .off, log := { threshold := .trace, lines := [] } }

/-- Passes a line on if its level is admitted. -/
def add (shared : SharedLog) (line : LogLine) : SharedLog :=
  if shared.maximum.admits line.level then { shared with log := shared.log.add line } else shared

end SharedLog

end AttributeStore
