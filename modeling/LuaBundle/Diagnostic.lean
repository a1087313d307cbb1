import LuaBundle.Path.Basic
import LuaBundle.Source.Span

namespace LuaBundle

inductive Level
  | error
  | warning
  | info
deriving DecidableEq, Repr

namespace Level

def label : Level → String
  | error => "ERROR"
  | warning => "WARN"
  | info => "INFO"

-- The graver a level, the lower its rank.
def rank : Level → Nat
  | error => 1
  | warning => 2
  | info => 3

end Level

-- A line of the log.
structure Event where
  level : Level
  message : String
deriving DecidableEq, Repr

def Event.line (e : Event) : String :=
  e.level.label ++ " " ++ e.message

-- Whether a log shows an event, with the least grave level that it shows, or none at all.
def Event.passes (threshold : Option Level) (e : Event) : Bool :=
  threshold.any (e.level.rank ≤ ·.rank)

-- A remark on a module that stops nothing.
structure Diagnostic where
  level : Level
  path : Path
  span : Span
  message : String
deriving DecidableEq, Repr

def Diagnostic.event (d : Diagnostic) : Event :=
  ⟨d.level, s!"{d.path.text}:{d.span.place}: {d.message}"⟩

def warningCount (ds : List Diagnostic) : Nat :=
  ds.countP (·.level = .warning)

end LuaBundle
