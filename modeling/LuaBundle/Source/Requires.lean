import LuaBundle.Text.Blank
import LuaBundle.Lua.Lex
import LuaBundle.Source.Lines

namespace LuaBundle

open Lua

-- A call of `require` whose argument is known from the text alone. The span runs from `require`
-- to the closing parenthesis or the end of the string.
structure StaticCall where
  literal : String
  span : Span
deriving DecidableEq, Repr

-- What a source says about `require`: its static calls and the places where `require` stands as a
-- value, each in source order.
structure Requires where
  calls : List StaticCall
  valueUses : List Span
deriving DecidableEq, Repr

-- A call of `require` with an argument that only a run can know.
structure DynamicCall where
  call : String
  span : Span
deriving DecidableEq, Repr

def DynamicCall.message (c : DynamicCall) : String :=
  s!"non-static require `{c.call}` at line {c.span.line}"

-- What one token `require` is.
inductive Mention
  | static (literal : String) (stop : Nat)
  | dynamic (stop : Option Nat)
  | value
  | other
deriving DecidableEq, Repr

namespace Mention

-- The literal and the end of an argument list `"a" .. 'b' )` whose `(` has just been taken.
def staticArgument? : List Token → Option (String × Nat)
  | ⟨.str part, _, _⟩ :: next :: rest =>
    if next.isSymbol ")" then some (part, next.stop)
    else if next.isSymbol ".." then (staticArgument? rest).map fun (more, stop) => (part ++ more, stop)
    else none
  | _ => none

-- The end of the token that brings the bracket depth back to zero.
def closing? (depth : Nat) : List Token → Option Nat
  | [] => none
  | t :: rest =>
    if t.isOpening then closing? (depth + 1) rest
    else if t.isClosing then
      if depth ≤ 1 then some t.stop else closing? (depth - 1) rest
    else closing? depth rest

-- Members, methods and definitions named `require` are not the global function.
def isForeign (before : Option Token) : Bool :=
  before.any fun t => t.isSymbol "." || t.isSymbol ":" || t.isName "function"

-- What a token is, from the token before it and the tokens after it.
def of (before : Option Token) (t : Token) (after : List Token) : Mention :=
  if !t.isName "require" || isForeign before then .other
  else match after with
    | ⟨.str literal, _, stop⟩ :: _ => .static literal stop
    | next :: rest =>
      if next.isSymbol "(" then
        match staticArgument? rest with
        | some (literal, stop) => .static literal stop
        | none => .dynamic (closing? 0 after)
      else if next.isSymbol "\x7b" then .dynamic (closing? 0 after)
      else if next.isSymbol "=" || before.any (·.isName "local") then .other
      else .value
    | [] => .value

end Mention

namespace Requires

-- A dynamic call is shown up to its closing bracket, or to the end of its line if it has none.
def dynamicCall (source : String) (lines : Lines) (start : Nat) (stop : Option Nat) : DynamicCall :=
  let s := source.toList
  let stop := stop.getD (lines.lineEnd start (Text.size s))
  ⟨String.ofList (Text.trimEnd (Text.slice start stop s)), lines.span start stop⟩

def ofTokens (source : String) (lines : Lines) (before : Option Token) :
    List Token → Except DynamicCall Requires
  | [] => .ok ⟨[], []⟩
  | t :: after =>
    match Mention.of before t after with
    | .static literal stop => do
      let r ← ofTokens source lines (some t) after
      return { r with calls := ⟨literal, lines.span t.start stop⟩ :: r.calls }
    | .dynamic stop => .error (dynamicCall source lines t.start stop)
    | .value => do
      let r ← ofTokens source lines (some t) after
      return { r with valueUses := lines.span t.start t.stop :: r.valueUses }
    | .other => ofTokens source lines (some t) after

-- The first dynamic call is an error.
def of (source : String) : Except DynamicCall Requires :=
  ofTokens source (.of source) none (lex source)

end Requires
end LuaBundle
