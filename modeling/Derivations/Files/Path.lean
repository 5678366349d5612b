import Derivations.Text.Basic

/-!
# Paths

A path is a text whose elements are separated by slashes. A grammar is named
after the file it comes from: the last element of the path without its
extension, which is everything from the last dot of that element on. So a file
that has nothing but an extension gives an empty name.

## Main definitions

* `Path.elements`: The elements of a path.
* `Path.base`: The last element.
* `Path.extension`: The extension of the last element.
* `Path.stem`: The last element without its extension.
-/

namespace Derivations

namespace Path

/-- The byte between the elements of a path. -/
def slash : UInt8 := '/'.toUInt8

/-- The byte an extension begins with. -/
def dot : UInt8 := '.'.toUInt8

/-- The elements of a path. Repeated slashes and slashes at either end do not
    make elements. -/
def elements (path : Text) : List Text :=
  (Text.splitAt slash path).filter (!·.isEmpty)

/-- Whether the path starts at the root of all directories. -/
def isAbsolute (path : Text) : Bool :=
  path.head? == some slash

/-- Whether the path ends with a slash and so insists on naming a directory. -/
def wantsDirectory (path : Text) : Bool :=
  path.getLast? == some slash

/-- The last element. A path without elements stands for the directory itself,
    or for the root if it has slashes. -/
def base (path : Text) : Text :=
  match (elements path).getLast? with
  | some element => element
  | none => if path.isEmpty then "." else "/"

/-- The part from the last dot behind the last slash on, or nothing if there is
    no such dot. -/
def extension (path : Text) : Text :=
  let last := path.reverse.takeWhile (· ≠ slash)
  if last.contains dot then (last.takeWhile (· ≠ dot) ++ [dot]).reverse else []

/-- A text without a given ending, or the text itself if it does not end so. -/
def dropEnding (ending t : Text) : Text :=
  if ending.isSuffixOf t then t.take (t.length - ending.length) else t

/-- The last element without its extension. -/
def stem (path : Text) : Text :=
  dropEnding (extension path) (base path)

end Path

end Derivations
