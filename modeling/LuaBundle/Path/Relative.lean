import LuaBundle.Path.Basic

namespace LuaBundle.Path

-- The parts of two lists after their common front.
def afterCommon {α : Type} [DecidableEq α] : List α → List α → List α × List α
  | a :: as, b :: bs => if a = b then afterCommon as bs else (a :: as, b :: bs)
  | as, bs => (as, bs)

-- The way from `root` to a path as text for people, with `..` for each component to leave. Where
-- the two have no common start there is no such way, and the path itself is given.
def relativeTo (p root : Path) : String :=
  if root.components.head? ≠ p.components.head? then p.slashed
  else
    let (leave, enter) := afterCommon root.components p.components
    String.intercalate "/" (leave.map (fun _ => "..") ++ enter.map (·.spelling.text))

end LuaBundle.Path
