/-!
# Log records

What the program tells about its work, beside its results.
-/

namespace LoxFront

/-- How important a record is. -/
inductive LogLevel where
  | debug
  | warning
deriving DecidableEq, Repr

/-- The name of a level. -/
def LogLevel.name : LogLevel → String
  | debug => "DEBUG"
  | warning => "WARNING"

/-- The parts of the program that keep a log. -/
inductive LogSource where
  | scanner
  | parser
  | config
  | command
deriving DecidableEq, Repr

/-- The name of a part in the log. -/
def LogSource.name : LogSource → String
  | scanner => "loxparse.scanner"
  | parser => "loxparse.parser"
  | config => "loxparse.config"
  | command => "loxparse.cli.loxp"

/-- A record of the log. -/
structure LogRecord where
  level : LogLevel
  source : LogSource
  message : String
deriving DecidableEq, Repr

namespace LogRecord

/-- A record with the name of its source. -/
def text (r : LogRecord) : String := r.level.name ++ ": " ++ r.source.name ++ ": " ++ r.message

/-- A record without the name of its source. -/
def brief (r : LogRecord) : String := r.level.name ++ ": " ++ r.message

end LogRecord

end LoxFront
