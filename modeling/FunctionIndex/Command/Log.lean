import FunctionIndex.Text.Decimal

/-! # Log

Every event has a level, and is shown if its level is at least as severe as the chosen one. Control
characters that a terminal would obey are written as escapes in a message. The time of an event,
which a line of the log starts with, is left out.
-/
namespace FunctionIndex.Command
set_option autoImplicit false

inductive Level where
  | off
  | error
  | warn
  | info
  | debug
  | trace
  deriving DecidableEq, Repr

namespace Level

/-- Less severe levels have a higher rank. -/
def rank : Level → Nat
  | .off => 0
  | .error => 1
  | .warn => 2
  | .info => 3
  | .debug => 4
  | .trace => 5

def name : Level → String
  | .off => "off"
  | .error => "error"
  | .warn => "warn"
  | .info => "info"
  | .debug => "debug"
  | .trace => "trace"

def tag : Level → String
  | .off => "OFF"
  | .error => "ERROR"
  | .warn => "WARN"
  | .info => "INFO"
  | .debug => "DEBUG"
  | .trace => "TRACE"

def all : List Level := [.off, .error, .warn, .info, .debug, .trace]

def ofName? (name : String) : Option Level := all.find? (·.name == name)

end Level

structure Event where
  level : Level
  message : String
  /-- Named values, written after the message as they are. -/
  values : List (String × String) := []

namespace Event

def escapeChar (c : Char) : List Char :=
  if c = '\x1b' then "\\x1b".toList
  else if c = '\x07' then "\\x07".toList
  else if c = '\x08' then "\\x08".toList
  else if c = '\x0c' then "\\x0c".toList
  else if c = '\x7f' then "\\x7f".toList
  else if 0x80 ≤ c.toNat ∧ c.toNat ≤ 0x9F then
    "\\u\x7b".toList ++ Nat.toDigits 16 c.toNat ++ ['\x7d']
  else [c]

def text (event : Event) : String :=
  event.level.tag ++ " " ++ String.ofList (event.message.toList.flatMap escapeChar) ++
    String.join (event.values.map fun value => " " ++ value.1 ++ "=" ++ value.2)

def isShown (chosen : Level) (event : Event) : Bool := event.level.rank ≤ chosen.rank

end Event
end FunctionIndex.Command
