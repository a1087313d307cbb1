namespace LuaBundle.Bundle

def header : String :=
  "-- Bundled by luapack\n"

-- The code in front of every bundle: the table of modules, the function that puts one in, and the
-- function that runs one when it is first required.
def preludeLines : List String :=
  [ "-- Module registry",
    "local __modules = \x7b\x7d",
    "local __loaded = type(package) == \"table\" and package.loaded or \x7b\x7d",
    "",
    "local function __define(id, filename, loader)",
    "    __modules[id] = \x7b state = \"unstarted\", value = nil, filename = filename, loader = loader \x7d",
    "end",
    "",
    "-- Custom require function for bundled modules",
    "local function __require(id)",
    "    local slot = __modules[id]",
    "    if slot == nil then",
    "        error(\"module not found in bundle: \" .. tostring(id), 2)",
    "    end",
    "",
    "    if slot.state == \"loaded\" then",
    "        return slot.value",
    "    end",
    "",
    "    if slot.state == \"loading\" then",
    "        -- Partial exports published through package.loaded[...]",
    "        local partial = __loaded[id]",
    "        if partial ~= slot.previous then",
    "            return partial",
    "        end",
    "        return nil",
    "    end",
    "",
    "    slot.state = \"loading\"",
    "    slot.previous = __loaded[id]",
    "    local value = slot.loader(id, slot.filename)",
    "    if value == nil then",
    "        local published = __loaded[id]",
    "        if published ~= nil and published ~= slot.previous then",
    "            value = published",
    "        else",
    "            value = true",
    "        end",
    "    end",
    "    if slot.previous == nil then",
    "        __loaded[id] = value",
    "    end",
    "    slot.value = value",
    "    slot.state = \"loaded\"",
    "    return value",
    "end" ]

def prelude : String :=
  String.join (preludeLines.map (· ++ "\n"))

end LuaBundle.Bundle
