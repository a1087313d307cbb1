import LuaBundle.Bundle.Emit
import LuaBundle.Bundle.Prelude
import LuaBundle.Bundle.Stringified
import LuaBundle.Command.Arguments
import LuaBundle.Command.Execute
import LuaBundle.Command.Failure
import LuaBundle.Command.Graphs
import LuaBundle.Command.Help
import LuaBundle.Command.Job
import LuaBundle.Command.Run
import LuaBundle.Command.Starter
import LuaBundle.Command.Work
import LuaBundle.Diagnostic
import LuaBundle.File.Memory
import LuaBundle.File.Sample
import LuaBundle.File.System
import LuaBundle.File.Tree.Basic
import LuaBundle.File.Tree.Change
import LuaBundle.Lua.Character
import LuaBundle.Lua.Cursor
import LuaBundle.Lua.Lex
import LuaBundle.Lua.LongBracket
import LuaBundle.Lua.Quote
import LuaBundle.Lua.ShortLiteral
import LuaBundle.Lua.Token
import LuaBundle.Lua.Trivia
import LuaBundle.Lua.Value
import LuaBundle.Main
import LuaBundle.Module.Basic
import LuaBundle.Module.Cycles
import LuaBundle.Module.Discovery
import LuaBundle.Module.Graph
import LuaBundle.Module.Locate
import LuaBundle.Number.Binary64
import LuaBundle.Number.Decimal
import LuaBundle.Number.Shortest
import LuaBundle.Options
import LuaBundle.Path.Basic
import LuaBundle.Path.Clean
import LuaBundle.Path.Relative
import LuaBundle.Project.Basic
import LuaBundle.Project.Decode
import LuaBundle.Project.Encode
import LuaBundle.Project.Load
import LuaBundle.Source.Embed
import LuaBundle.Source.Lines
import LuaBundle.Source.Requires
import LuaBundle.Source.Span
import LuaBundle.Text.Base64
import LuaBundle.Text.Blank
import LuaBundle.Text.Invisible
import LuaBundle.Text.Json
import LuaBundle.Text.Size
import LuaBundle.Text.Utf8
import LuaBundle.Text.Visible
import LuaBundle.Watch.Debounce
import LuaBundle.Watch.Files
import LuaBundle.Watch.Loop
import LuaBundle.Yaml.BlockScalar
import LuaBundle.Yaml.Character
import LuaBundle.Yaml.Frame
import LuaBundle.Yaml.Implicit
import LuaBundle.Yaml.Node
import LuaBundle.Yaml.PlainScalar
import LuaBundle.Yaml.QuotedScalar
import LuaBundle.Yaml.Read
import LuaBundle.Yaml.Style
import LuaBundle.Yaml.Token
import LuaBundle.Yaml.Tokens
import LuaBundle.Yaml.Write
import LuaBundle.Proofs.Except
import LuaBundle.Proofs.Text.Utf8
import LuaBundle.Proofs.Text.Offset
import LuaBundle.Proofs.Source.Lines
import LuaBundle.Proofs.Lua.LongBracket
import LuaBundle.Proofs.Lua.Trivia
import LuaBundle.Proofs.Lua.ShortLiteral
import LuaBundle.Proofs.Lua.Boundary
import LuaBundle.Proofs.Lua.Cursor.Bytes
import LuaBundle.Proofs.Lua.Cursor.Readers
import LuaBundle.Proofs.Lua.Kinds
import LuaBundle.Proofs.Lua.Cursor.Lex
import LuaBundle.Proofs.Lua.Quote
import LuaBundle.Proofs.Lua.Places
import LuaBundle.Proofs.Source.Mention
import LuaBundle.Proofs.Source.Scan
import LuaBundle.Proofs.Source.Outline
import LuaBundle.Proofs.Source.Embed
import LuaBundle.Proofs.Source.Replaced
import LuaBundle.Proofs.Path.Clean
import LuaBundle.Proofs.Path.Relative
import LuaBundle.Proofs.File.Memory
import LuaBundle.Proofs.Module.Ids
import LuaBundle.Proofs.Module.Discovery
import LuaBundle.Proofs.Module.Explored
import LuaBundle.Proofs.Module.Needed
import LuaBundle.Proofs.Module.Sharing
import LuaBundle.Proofs.Module.Order
import LuaBundle.Proofs.Module.Breakage
import LuaBundle.Proofs.Module.Body
import LuaBundle.Proofs.Module.External
import LuaBundle.Proofs.Bundle.Framing
import LuaBundle.Proofs.Source.Splice
import LuaBundle.Proofs.Module.Closed
import LuaBundle.Proofs.Module.Locate
import LuaBundle.Proofs.Module.Simulation
import LuaBundle.Proofs.Bundle.Copied
import LuaBundle.Proofs.File.Mount
import LuaBundle.Proofs.Module.Mounted
import LuaBundle.Proofs.Bundle.Mounted
import LuaBundle.Proofs.Bundle.Required
import LuaBundle.Proofs.Source.CallText
import LuaBundle.Proofs.Source.Moved
import LuaBundle.Proofs.Source.Exchange
import LuaBundle.Proofs.Bundle.Exchange
import LuaBundle.Proofs.Module.BreadthFirst
import LuaBundle.Proofs.Module.Diagnostics
import LuaBundle.Proofs.Source.Spacing
import LuaBundle.Proofs.Text.LineEnds
import LuaBundle.Proofs.Lua.LineEnds
import LuaBundle.Proofs.Source.Similar
import LuaBundle.Proofs.Source.LineEnds
import LuaBundle.Proofs.Module.SearchPaths
import LuaBundle.Proofs.Module.Worklist
import LuaBundle.Proofs.Module.MoreExternals
import LuaBundle.Proofs.File.Tree
import LuaBundle.Proofs.Watch.Files
import LuaBundle.Proofs.Module.Cycles
import LuaBundle.Proofs.Path.Rebase
import LuaBundle.Proofs.Project.Outputs
import LuaBundle.Proofs.File.Grow
import LuaBundle.Proofs.Module.Lookups
import LuaBundle.Proofs.File.Ahead
import LuaBundle.Proofs.File.Beside
import LuaBundle.Proofs.Command.Independent
import LuaBundle.Proofs.Yaml.Scalar
import LuaBundle.Proofs.Yaml.Scan
import LuaBundle.Proofs.Yaml.Layout
import LuaBundle.Proofs.Yaml.Assembly
import LuaBundle.Proofs.Project.RoundTrip
import LuaBundle.Proofs.Lua.Verbatim
import LuaBundle.Proofs.Lua.Pieces
import LuaBundle.Proofs.Lua.Gaps
import LuaBundle.Proofs.Source.Partition
import LuaBundle.Proofs.Path.Parent
import LuaBundle.Proofs.File.Place
import LuaBundle.Proofs.File.Footprint
import LuaBundle.Proofs.Command.Footprint
import LuaBundle.Proofs.Text.Base64
import LuaBundle.Proofs.Bundle.Stringified
import LuaBundle.Proofs.File.Coherent
import LuaBundle.Proofs.Module.Detours
import LuaBundle.Proofs.Lua.Numeral
import LuaBundle.Proofs.Source.Operand
import LuaBundle.Proofs.Path.Shortest
import LuaBundle.Proofs.Source.Position
