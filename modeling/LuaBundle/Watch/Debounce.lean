namespace LuaBundle

-- Waits for the end of a burst of changes: it fires once nothing has changed for a while. Times
-- are in milliseconds.
structure Debouncer where
  quiet : Nat
  pending : Option Nat
deriving DecidableEq, Repr

namespace Debouncer

def of (quiet : Nat) : Debouncer :=
  ⟨quiet, none⟩

def touch (d : Debouncer) (now : Nat) : Debouncer :=
  { d with pending := some now }

-- Whether the burst is over, and what to wait with next. It is over at most once.
def ready (d : Debouncer) (now : Nat) : Bool × Debouncer :=
  match d.pending with
  | some last => if d.quiet ≤ now - last then (true, { d with pending := none }) else (false, d)
  | none => (false, d)

end Debouncer
end LuaBundle
