import LuaBundle.File.Tree.Change

namespace LuaBundle

-- Small trees of modules to try a bundle on.
inductive Sample
  | empty
  -- each module requires the next
  | chain
  -- two ways to one module, which counts how often it runs
  | diamond
  -- two modules that require each other
  | cycle
  -- the same, but the first is to be had before it is complete
  | publishedCycle
  -- names with dots, and a directory as a module
  | package
deriving DecidableEq, Repr

namespace Sample

def files : Sample → List (Path × String)
  | empty => []
  | chain => [
    (⟨"main.lua"⟩, "local a = require(\"a\")
return a.value
"),
    (⟨"a.lua"⟩, "local b = require(\"b\")
return \x7b value = b \x7d
"),
    (⟨"b.lua"⟩, "return 42\n")]
  | diamond => [
    (⟨"main.lua"⟩, "local left = require(\"left\")
local right = require(\"right\")
return \x7b loads = loads, same = left.shared == right.shared \x7d
"),
    (⟨"left.lua"⟩, "return \x7b shared = require(\"shared\") \x7d\n"),
    (⟨"right.lua"⟩, "return \x7b shared = require(\"shared\") \x7d\n"),
    (⟨"shared.lua"⟩, "loads = (loads or 0) + 1
return \x7b\x7d
")]
  | cycle => [
    (⟨"main.lua"⟩, "local a = require(\"a\")
return a.name .. \":\" .. a.peer
"),
    (⟨"a.lua"⟩, "local M = \x7b name = \"a\" \x7d
local b = require(\"b\")
M.peer = b.saw
return M
"),
    (⟨"b.lua"⟩, "local a = require(\"a\")
return \x7b saw = tostring(a) \x7d
")]
  | publishedCycle => [
    (⟨"main.lua"⟩, "local a = require(\"a\")
return a.name .. \":\" .. a.peer
"),
    (⟨"a.lua"⟩, "local M = \x7b name = \"a\" \x7d
package.loaded[...] = M
local b = require(\"b\")
M.peer = b.saw
return M
"),
    (⟨"b.lua"⟩, "local a = require(\"a\")
return \x7b saw = tostring(a and a.name) \x7d
")]
  | package => [
    (⟨"main.lua"⟩, "local util = require(\"lib.util\")
local shapes = require(\"shapes\")
return util.double(shapes.square(3))
"),
    (⟨"lib/util.lua"⟩, "local M = \x7b\x7d
function M.double(x) return x * 2 end
return M
"),
    (⟨"shapes/init.lua"⟩, "local util = require(\"lib.util\")
return \x7b square = function(x) return util.double(x) * x / 2 end \x7d
")]

end Sample

-- A tree with more files under a directory.
def Tree.plant (t : Tree) (root : Path) (files : List (Path × String)) :
    Tree × Option (Change × FileError) :=
  Change.applyAll t (files.flatMap fun (p, text) => Change.writing (root.join p) text)

-- The regular files under a place, by their location from there.
def Tree.filesUnder (t : Tree) (root : Location) : List (Location × ByteArray) :=
  t.entries.filterMap fun (place, e) =>
    match e with
    | .file content => if root.isPrefixOf place then some (place.drop root.length, content) else none
    | _ => none

end LuaBundle
