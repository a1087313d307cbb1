import LuaBundle.Command.Arguments

namespace LuaBundle

-- A setting as it is spelled on the command line.
def Setting.spelling : Setting → String
  | entries => "[ENTRY]..."
  | output => "--output <FILE>"
  | project => "--project <FILE>"
  | stringify => "--stringify <FILE>"
  | searchPaths => "--search-path <DIR>"
  | externals => "--external <NAME>"
  | extension => "--extension <EXT>"
  | graph => "--graph"
  | json => "--json"
  | watch => "--watch"
  | init => "--init"
  | help => "--help"
  | version => "--version"

namespace Usage

def versionText : String :=
  "luapack 0.1.0\n"

def helpText : String :=
  "Bundle a Lua module tree into a single file

Usage: luapack [OPTIONS] [ENTRY]...

Arguments:
  [ENTRY]...  Entry files to bundle (default: the targets of the project file)

Options:
  -o, --output <FILE>      Write the bundle here instead of stdout (single entry only)
  -p, --project <FILE>     Path to the luapack.yaml project file
      --stringify <FILE>   Also write the base64 stringified bundle here (single entry only)
  -I, --search-path <DIR>  Extra module search directory (repeatable)
      --external <NAME>    Module provided by the host at run time (repeatable)
      --extension <EXT>    Source file extension
      --graph              Print the dependency graph instead of the bundle
      --json               Print the dependency graph as JSON
  -w, --watch              Re-bundle whenever a module file changes
      --init               Initialize a new luapack project
  -h, --help               Print help
  -V, --version            Print version
"

-- What is printed instead of carrying out a command line.
def message : Usage → String
  | unknownArgument argument => s!"error: unexpected argument '{argument}' found\n"
  | invalidValue s => s!"error: a value is required for '{s.spelling}' but none was supplied\n"
  | argumentConflict s => s!"error: the argument '{s.spelling}' cannot be used multiple times\n"
  | missingRequiredArgument =>
    "error: the following required arguments were not provided:\n  --graph\n"
  | tooManyValues s => s!"error: unexpected value for '{s.spelling}' found; no more were expected\n"
  | help => helpText
  | version => versionText

-- The exit status that goes with it. Asking for help is no error.
def status : Usage → Nat
  | help | version => 0
  | _ => 2

end Usage
end LuaBundle
