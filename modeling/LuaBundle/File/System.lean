import LuaBundle.Path.Basic

namespace LuaBundle

-- Why the operating system refuses an operation on a path.
inductive Errno
  | noEntry
  | alreadyExists
  | notDirectory
  | isDirectory
  | nameTooLong
  | tooManyLinks
deriving DecidableEq, Repr

namespace Errno

def code : Errno → Nat
  | noEntry => 2
  | alreadyExists => 17
  | notDirectory => 20
  | isDirectory => 21
  | nameTooLong => 36
  | tooManyLinks => 40

def text : Errno → String
  | noEntry => "No such file or directory"
  | alreadyExists => "File exists"
  | notDirectory => "Not a directory"
  | isDirectory => "Is a directory"
  | nameTooLong => "File name too long"
  | tooManyLinks => "Too many levels of symbolic links"

end Errno

-- Why a file cannot be used.
inductive FileError
  -- no file is stored under the path
  | missing (path : Path)
  | system (cause : Errno)
  -- a source with a byte that UTF-8 does not allow
  | encoding (offset : Nat)
  -- any other text that is not UTF-8
  | notText
  -- something that cannot be copied, such as a directory
  | notRegular
  -- a path with a NUL in it
  | nulInPath
deriving DecidableEq, Repr

namespace FileError

def message : FileError → String
  | missing path => s!"no such file: {path.text}"
  | system cause => s!"{cause.text} (os error {cause.code})"
  | encoding offset => s!"not valid UTF-8 at byte {offset}, Lua sources must be UTF-8 encoded"
  | notText => "stream did not contain valid UTF-8"
  | notRegular => "the source path is neither a regular file nor a symlink to a regular file"
  | nulInPath => "file name contained an unexpected NUL byte"

end FileError

-- The answers that bundling needs from files.
structure FileSystem where
  isFile : Path → Bool
  read : Path → Except FileError String
  canonicalize : Path → Except FileError Path

-- Files that are finitely many, so that looking for ever more of them comes to an end: `known`
-- lists every path that `canonicalize` can give.
structure FiniteFiles extends FileSystem where
  known : List Path
  mem_known : ∀ {p q : Path}, canonicalize p = .ok q → q ∈ known

end LuaBundle
