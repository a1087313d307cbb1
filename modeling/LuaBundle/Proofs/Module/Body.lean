import LuaBundle.Proofs.Module.Discovery
import LuaBundle.Proofs.Source.Embed

namespace LuaBundle

open Lua

namespace Module

variable {m : Module} {r : Requires}

-- What a module's references put in place of its calls.
def calls (m : Module) : List (Span × String) :=
  m.references.map fun r => (r.span, r.target.text)

theorem map_fst_calls_sublist (h : (m.references.map Reference.call).Sublist r.calls) :
    (m.calls.map Prod.fst).Sublist (r.calls.map StaticCall.span) := by
  have := h.map StaticCall.span
  simpa [calls, Reference.call, Function.comp_def] using this

-- The tokens of a module's body are those of its source with the calls replaced, whatever the ids
-- are.
theorem kinds_body (h : Requires.of m.source = .ok r)
    (hr : (m.references.map Reference.call).Sublist r.calls) :
    (lex ("\n" ++ m.body)).map Token.kind = substitute m.calls (lex m.source) := by
  rw [lex_line_feed]
  exact (kinds_embed h (map_fst_calls_sublist hr)).1

-- A module with a byte order mark, a first line that starts with `#`, and a call that touches its
-- neighbours and is the only one to be replaced, by an id that needs quoting.
def marked : Module where
  id := ⟨"m"⟩
  path := ⟨"/m.lua"⟩
  source := "\uFEFF#!lua\nx=1;require\"a\"..require('b'..\"c\")"
  references := [⟨"a", ⟨13, 23, 2, 5⟩, ⟨"/a.lua"⟩, ⟨"a\n\""⟩⟩]

theorem kinds_body_marked :
    (lex ("\n" ++ marked.body)).map Token.kind =
      [.name "x", .symbol "=", .number, .symbol ";", .name "__require", .symbol "(", .str "a\n\"",
        .symbol ")", .symbol "..", .name "require", .symbol "(", .str "b", .symbol "..", .str "c",
        .symbol ")"] :=
  (kinds_body
    (r := ⟨[⟨"a", ⟨13, 23, 2, 5⟩⟩, ⟨"bc", ⟨25, 42, 2, 17⟩⟩], []⟩)
    (by decide +kernel) (by decide +kernel)).trans (by decide +kernel)

end Module

end LuaBundle
