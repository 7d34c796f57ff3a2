/-! Code that a module is loaded from.
How files become libraries, and how the platform names them, is up to a loader; this fixes which files
are asked for and what a library answers.
-/

namespace MovingHeap

/-- An opened library file and the functions it exports. -/
structure Library where
  file : String
  exports : List String
  deriving DecidableEq, Repr, Inhabited

/-- The place of a function; equal for one function of one file, however often it was opened. -/
structure Symbol where
  file : String
  name : String
  deriving DecidableEq, Repr

/-- What a platform makes of files. -/
structure Loader where
  /-- Opens the file at a path, if it is a library. -/
  open? : String → Option Library
  /-- The file name that the platform gives to the library `name`. -/
  fileName : String → String

namespace Library

/-- The name of a function without the NUL it may end in. -/
def symbolName (name : String) : String :=
  if name.endsWith "\x00" then (name.dropEnd 1).toString else name

/-- Looks up an exported function. -/
def symbol? (library : Library) (name : String) : Option Symbol :=
  let name := symbolName name
  if library.exports.contains name then some ⟨library.file, name⟩ else none

end Library

namespace Loader

/-- A file in a directory. -/
def inDirectory (directory name : String) : String :=
  if directory.endsWith "/" then directory ++ name else directory ++ "/" ++ name

/-- The paths a module is looked for at, in order. A name with a separator is a path already; any
other is looked for in each directory of the search path and then wherever the loader looks, bare
first and as a file name second.
-/
def candidates (loader : Loader) (name searchPath : String) : List String :=
  if name.contains '/' then [name]
  else
    let directories := (searchPath.splitOn ":").filter (!·.isEmpty)
    directories.flatMap (fun directory =>
      [inDirectory directory name, inDirectory directory (loader.fileName name)])
      ++ [name, loader.fileName name]

/-- There is always something to try. -/
theorem candidates_ne_nil (loader : Loader) (name searchPath : String)
    : loader.candidates name searchPath ≠ [] := by
  unfold candidates
  split <;> simp

end Loader

end MovingHeap
