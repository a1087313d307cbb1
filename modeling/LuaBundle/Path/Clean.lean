import LuaBundle.Path.Basic

namespace LuaBundle.Path

-- One more component on a clean path, whose components are given last first.
def cleanStep (before : List Component) (c : Component) : List Component :=
  match c, before with
  | .here, _ => before
  | .up, .root :: _ => before
  | .up, .name _ :: rest => rest
  | c, _ => c :: before

-- The shortest spelling of a path as far as the text alone tells: no `.`, no `..` after a name and
-- none after the root. Links are not looked at.
def clean (p : Path) : Path :=
  match (p.components.foldl cleanStep []).reverse with
  | [] => ⟨"."⟩
  | cs => ofComponents cs

end LuaBundle.Path
