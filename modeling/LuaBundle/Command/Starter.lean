import LuaBundle.Command.Run

namespace LuaBundle.Starter

-- The files of a new project.

def projectText : String :=
  "# luapack project file

bundlerOptions:
  searchPaths: []        # Extra directories for module lookup
  externals: []          # Modules the host provides at run time

targets:
  - name: main
    entry: src/main.lua
    output: dist/main.lua
"

def entrySource : String :=
  "local greet = require(\"./greet\")

print(greet(\"World\"))
"

def greetSource : String :=
  "return function(name)
    return \"Hello, \" .. name .. \"!\"
end
"

-- The changes that make a project in a directory, each with what is printed once it is done.
def changes (directory : Path) : List (Change × String) :=
  let sources := directory.join ⟨"src"⟩
  [ (.write (directory.join projectFile) projectText.toUTF8, s!"Created {projectFile.text}\n"),
    (.makeDirectories sources, ""),
    (.write (sources.join ⟨"main.lua"⟩) entrySource.toUTF8, ""),
    (.write (sources.join ⟨"greet.lua"⟩) greetSource.toUTF8,
      "Created src/main.lua and src/greet.lua\n\n" ++
        "Project initialized. Run 'luapack' to bundle it into dist/main.lua.\n") ]

def perform (t : Tree) (output : String) : List (Change × String) → Report
  | [] => ⟨t, output, [], none⟩
  | (c, done) :: rest =>
    match c.apply t with
    | (t, some e) => ⟨t, output, [], some (.starter e)⟩
    | (t, none) => perform t (output ++ done) rest

-- Start a project where there is none.
def run (t : Tree) (directory : Path) : Report :=
  let file := directory.join projectFile
  if t.holds file then ⟨t, "", [], some (.projectExists file)⟩
  else perform t "" (changes directory)

end LuaBundle.Starter
