import LuaBundle.Yaml.Style

namespace LuaBundle.Yaml

-- What is written to a document.
inductive Value
  | null
  | text (t : String)
  | list (items : List Value)
  | record (entries : List (String × Value))

namespace Value

mutual

-- The items of a list with their dashes in column `indent`.
def writeItems (indent : Nat) : List Value → List Char
  | [] => []
  | v :: rest => pad indent ++ '-' :: writeItem indent v ++ writeItems indent rest

-- An item after its dash. The first line of a collection stands beside the dash.
def writeItem (indent : Nat) : Value → List Char
  | null => " null\n".toList
  | text t => ' ' :: writeScalar (indent + 2) t
  | list [] => " []\n".toList
  | list (v :: rest) => " -".toList ++ writeItem (indent + 2) v ++ writeItems (indent + 2) rest
  | record [] => " \x7b\x7d\n".toList
  | record ((key, v) :: rest) =>
    ' ' :: key.toList ++ ':' :: writeValue (indent + 2) v ++ writeEntries (indent + 2) rest

-- The entries of a record with their keys in column `indent`. Keys are plain scalars.
def writeEntries (indent : Nat) : List (String × Value) → List Char
  | [] => []
  | (key, v) :: rest =>
    pad indent ++ key.toList ++ ':' :: writeValue indent v ++ writeEntries indent rest

-- A value after the colon of its key. The dashes of a list stand under the key.
def writeValue (indent : Nat) : Value → List Char
  | null => " null\n".toList
  | text t => ' ' :: writeScalar (indent + 2) t
  | list [] => " []\n".toList
  | list (v :: rest) =>
    '\n' :: pad indent ++ '-' :: writeItem indent v ++ writeItems indent rest
  | record [] => " \x7b\x7d\n".toList
  | record ((key, v) :: rest) =>
    '\n' :: pad (indent + 2) ++ key.toList ++ ':' :: writeValue (indent + 2) v ++
      writeEntries (indent + 2) rest

end

end Value

-- The document that holds a record.
def write (entries : List (String × Value)) : String :=
  String.ofList (Value.writeEntries 0 entries)

end LuaBundle.Yaml
