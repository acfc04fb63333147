/-!
# Messages

The levels of `kernel/logging.h`, and the messages that parts of the kernel
log where nothing else of the call matters.
-/

namespace PivotOs

/-- `log_level_t`. -/
inductive LogLevel
  | error
  | warning
  | info
  | verbose
  | debug
  | trace
  deriving DecidableEq

namespace LogLevel

/-- The value of the enumerator. -/
def toNat : LogLevel → Nat
  | error => 0
  | warning => 1
  | info => 2
  | verbose => 3
  | debug => 4
  | trace => 5

/-- `MIN_LOG_LEVEL`. -/
def minLogLevel : LogLevel := verbose

/-- Messages of the level are not printed. -/
def Skipped (level : LogLevel) : Prop := minLogLevel.toNat < level.toNat

instance (level : LogLevel) : Decidable level.Skipped :=
  inferInstanceAs (Decidable (_ < _))

end LogLevel

/-- A call of `log`. -/
structure LogLine where
  /-- The level. -/
  level : LogLevel
  /-- The part of the kernel that speaks. -/
  target : String
  /-- The text. -/
  text : String
  deriving DecidableEq

end PivotOs
