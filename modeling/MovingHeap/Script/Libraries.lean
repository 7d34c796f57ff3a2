import MovingHeap.Roots.Library

/-! A small tree of library files for scripts to load modules from.
The tree hangs below a directory that is written `@`; nothing outside of it loads.
-/

namespace MovingHeap.Script.Libraries

/-- What a path leads to. -/
inductive Entry where
  | directory
  | library (exports : List String)
  /-- A file that does not load. -/
  | other
  deriving DecidableEq, Repr

/-- Everything in the tree, by the names that lead to it. -/
def tree : List (List String × Entry) :=
  [([], .directory), (["a"], .directory), (["b"], .directory), (["c d"], .directory),
    (["a", "dirmod"], .directory),
    (["a", "libone.so"], .library ["one_fn", "shared_fn"]),
    (["b", "libone.so"], .library ["one_b_fn", "shared_fn"]),
    (["a", "two"], .library ["two_fn"]),
    (["b", "libtwo.so"], .library ["two_b_fn", "shared_fn"]),
    (["a", "both"], .library ["both_bare_fn"]),
    (["a", "libboth.so"], .library ["both_lib_fn"]),
    (["b", "three.so"], .library ["three_fn"]),
    (["b", "libdirmod.so"], .library ["dirmod_fn"]),
    (["b", "libbroken.so"], .library ["broken_fn"]),
    (["a", "libbroken.so"], .other),
    (["c d", "libspace.so"], .library ["space_fn", "shared_fn"]),
    (["b", "libünï.so"], .library ["uni_fn"])]

/-- Follows a path from the place `here`, whose names are kept last first; only directories lead
further, and only within the tree.
-/
def resolve? (here : List String) : List String → Option (List String)
  | [] => some here.reverse
  | name :: names =>
      if tree.lookup here.reverse ≠ some .directory then none
      else if name = "" ∨ name = "." then resolve? here names
      else if name = ".." then
        match here with
        | [] => none
        | _ :: above => resolve? above names
      else resolve? (name :: here) names

/-- What follows the directory of the tree in the names of a path; the root may stand before it. -/
def belowTree? : List String → Option (List String)
  | "@" :: names => some names
  | "" :: names =>
      match names.dropWhile (["", ".", ".."].contains ·) with
      | "@" :: names => some names
      | _ => none
  | _ => none

/-- The most bytes that a path can have. -/
def longestPath : Nat := 4095

/-- Opens a library of the tree, unless its path is too long; the file it is known by does not
depend on the way to it.
-/
def open? (path : String) : Option Library :=
  if longestPath < path.utf8ByteSize then none
  else
    ((belowTree? (path.splitOn "/")).bind (resolve? [])).bind fun place =>
      match tree.lookup place with
      | some (.library exports) => some { file := String.intercalate "/" ("@" :: place), exports }
      | _ => none

/-- The loader of the libraries of the tree. -/
def loader : Loader where
  open? := open?
  fileName name := "lib" ++ name ++ ".so"

end MovingHeap.Script.Libraries
