import SchemaOverlay.Text.Basic

/-!
What the program tells about its work while it runs, by importance.
-/
namespace SchemaOverlay

inductive LogLevel
  | error | warn | info | debug | trace
  deriving DecidableEq, Repr

def LogLevel.word : LogLevel → String
  | .error => "ERROR"
  | .warn => "WARN"
  | .info => "INFO"
  | .debug => "DEBUG"
  | .trace => "TRACE"

def LogLevel.rank : LogLevel → Nat
  | .error => 0
  | .warn => 1
  | .info => 2
  | .debug => 3
  | .trace => 4

structure LogRecord where
  level : LogLevel
  message : String
  deriving DecidableEq, Repr

def LogRecord.text (r : LogRecord) : String := r.level.word ++ " " ++ r.message

def LogRecord.isTold (inForce : LogLevel) (r : LogRecord) : Bool := r.level.rank ≤ inForce.rank

def LogRecord.forTerminal (r : LogRecord) : LogRecord :=
  { r with message := Text.forTerminal r.message }

end SchemaOverlay
