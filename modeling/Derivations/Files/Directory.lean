import Derivations.Files.Path

/-!
# Directories

Reading and creating files fails for reasons of its own, and the reason ends
up in front of the user. A directory here is what matters for that: which
files it holds and which further directories, all named by the elements of
their paths.

A path is followed element by element. Every element but the last has to name
a directory, also where the next element leads back out of it. Of what lies
outside only so much is known: the directories above this one exist and end at
the root of all directories after a few steps, the root holds the directories
which every system has, and among their files are two devices. The null device
is empty whatever is written to it, and the full device refuses every byte.

Names and paths must not be too long. A path that ends with a slash insists on
a directory. There is no way to create one like that, so creating a file fails
before its last element is looked at.

## Main definitions

* `FileFault`: A failed file operation and the reason for it.
* `Directory`: Files and directories by the elements of their paths.
* `Directory.read`: The content of a file.
* `Outlet`: Where the bytes of a created file go.
* `Directory.create`: Whether a file can be created, and where its bytes go.
-/

namespace Derivations

/-- Why a file operation fails. -/
inductive FileReason where
  | notFound
  | notDirectory
  | isDirectory
  | invalid
  | nameTooLong
  | denied
  | full
deriving DecidableEq, Repr

/-- The reason in words. -/
def FileReason.text : FileReason → Text
  | notFound => "no such file or directory"
  | notDirectory => "not a directory"
  | isDirectory => "is a directory"
  | invalid => "invalid argument"
  | nameTooLong => "file name too long"
  | denied => "permission denied"
  | full => "no space left on device"

/-- What is done with a file. Creating a file is a way of opening it. -/
inductive FileOperation where
  | opening
  | reading
  | writing
deriving DecidableEq, Repr

/-- The operation in words. -/
def FileOperation.text : FileOperation → Text
  | opening => "open"
  | reading => "read"
  | writing => "write"

/-- A failed file operation: what was tried, with which path, and why it
    failed. -/
structure FileFault where
  operation : FileOperation
  path : Text
  reason : FileReason
deriving DecidableEq, Repr

/-- The failure in words. -/
def FileFault.text (f : FileFault) : Text :=
  f.operation.text ++ " " ++ f.path ++ ": " ++ f.reason.text

/-- A device that every system has. -/
inductive Device where
  /-- Takes everything and holds nothing. -/
  | null
  /-- Takes nothing. -/
  | full
deriving DecidableEq, Repr

/-- Where the bytes of a created file go. -/
inductive Outlet where
  /-- Into a file of the directory, by the elements of its path. -/
  | inside (elements : List Text)
  /-- To some other place, which takes them. -/
  | elsewhere
  /-- Nowhere: they are refused. -/
  | full
deriving DecidableEq, Repr

/-- What a path leads to. -/
inductive Place where
  /-- A file of the directory, by the elements of its path. -/
  | file (elements : List Text) (content : Text)
  /-- The directory itself, one within it, or one outside of it. -/
  | directory
  /-- A device. -/
  | device (device : Device)
  /-- Nothing, but its last element could be created in an existing directory. -/
  | vacant (elements : List Text)
  /-- Nothing, in a directory that lies outside. -/
  | outside
deriving DecidableEq, Repr

/-- The number of bytes a name may have. -/
def nameLimit : Nat := 255

/-- The number of bytes a path may have. -/
def pathLimit : Nat := 4095

/-- Files with their contents and directories, all by the elements of their
    paths. A directory that something lies in need not be listed itself. -/
structure Directory where
  files : List (List Text × Text)
  folders : List (List Text)
deriving Repr

namespace Directory

/-- The content of the file with the given elements. -/
def content? (d : Directory) (elements : List Text) : Option Text :=
  d.files.lookup elements

/-- Whether the given elements lead to a directory. -/
def hasFolder (d : Directory) (elements : List Text) : Bool :=
  elements.isEmpty || d.folders.any elements.isPrefixOf ||
    d.files.any fun (file, _) => elements.isPrefixOf file && elements ≠ file

/-- The directories that the root of all directories holds on every system. -/
def systemFolders : List Text :=
  ["bin", "dev", "etc", "home", "lib", "media", "mnt", "opt", "proc", "root", "run", "sbin", "srv",
    "sys", "tmp", "usr", "var"]

/-- What is found under an absolute path. -/
def systemPlace : List Text → Place
  | [] => .directory
  | [folder] => if systemFolders.contains folder then .directory else .outside
  | elements =>
    if elements = [Text.ofString "dev", "null"] then .device .null
    else if elements = [Text.ofString "dev", "full"] then .device .full
    else .outside

/-- How many steps above the directory lead to the root of all directories,
    wherever the directory lies. -/
def depthLimit : Nat := 8

/-- Where a path has led so far: into the directory, a number of steps above
    it, or from the root of all directories to somewhere else. -/
inductive Position where
  | within (elements : List Text)
  | above (steps : Nat)
  | fromRoot (elements : List Text)
deriving DecidableEq, Repr

namespace Position

/-- The directory that a directory lies in. The root lies in itself. -/
def parent : Position → Position
  | within [] => above 1
  | within elements => within elements.dropLast
  | above steps => if steps + 1 < depthLimit then above (steps + 1) else fromRoot []
  | fromRoot elements => fromRoot elements.dropLast

end Position

/-- The place that a name stands for in a directory, and the position there. -/
def enter (d : Directory) (name : Text) : Position → Position × Place
  | .within elements =>
    let there := elements ++ [name]
    let place :=
      match d.content? there with
      | some content => .file there content
      | none => if d.hasFolder there then .directory else .vacant there
    (.within there, place)
  | .above steps => (.above steps, .outside)
  | .fromRoot elements =>
    let there := elements ++ [name]
    (.fromRoot there, systemPlace there)

/-- One step from a directory to the place an element names. -/
def step (d : Directory) (element : Text) (here : Position) : Except FileReason (Position × Place) :=
  if element = Text.ofString "." then .ok (here, .directory)
  else if element = Text.ofString ".." then .ok (here.parent, .directory)
  else if nameLimit < element.length then .error .nameTooLong
  else .ok (d.enter element here)

/-- Follows the elements of a path from a directory on. -/
def follow (d : Directory) (here : Position) : List Text → Except FileReason Place
  | [] => .ok .directory
  | [element] => (d.step element here).map (·.2)
  | element :: rest =>
    match d.step element here with
    | .error e => .error e
    | .ok (next, .directory) => d.follow next rest
    | .ok (_, .file _ _) | .ok (_, .device _) => .error .notDirectory
    | .ok (_, _) => .error .notFound

/-- The place that elements lead to from where a path starts. Some paths lead
    nowhere whatever their elements are. -/
def resolve (d : Directory) (path : Text) (elements : List Text) : Except FileReason Place :=
  if path.isEmpty then .error .notFound
  else if path.contains 0 then .error .invalid
  else if pathLimit < path.length then .error .nameTooLong
  else d.follow (if Path.isAbsolute path then .fromRoot [] else .within []) elements

/-- The content of the file at a path. Opening fails if there is nothing to
    open; a directory can be opened, but reading it fails. Devices count as
    empty. -/
def read (d : Directory) (path : Text) : Except FileFault Text :=
  let failed (operation : FileOperation) (reason : FileReason) : Except FileFault Text :=
    .error ⟨operation, path, reason⟩
  let opened (content : Text) : Except FileFault Text :=
    if Path.wantsDirectory path then failed .opening .notDirectory else .ok content
  match d.resolve path (Path.elements path) with
  | .error reason => failed .opening reason
  | .ok (.file _ content) => opened content
  | .ok (.device _) => opened []
  | .ok .directory => failed .reading .isDirectory
  | .ok (.vacant _) | .ok .outside => failed .opening .notFound

/-- Why a file cannot be created at a path that insists on a directory: the path
    is wrong up to its last element, or else there would be a directory. -/
def refusal (d : Directory) (path : Text) : FileReason :=
  match d.resolve path (Path.elements path).dropLast with
  | .error reason => reason
  | .ok .directory => .isDirectory
  | .ok (.file _ _) | .ok (.device _) => .notDirectory
  | .ok (.vacant _) | .ok .outside => .notFound

/-- Creates a file at a path, or empties it if there is one already. The result
    tells where its bytes go. -/
def create (d : Directory) (path : Text) : Except FileFault Outlet :=
  let failed (reason : FileReason) : Except FileFault Outlet :=
    .error ⟨.opening, path, reason⟩
  if Path.wantsDirectory path then failed (d.refusal path)
  else
    match d.resolve path (Path.elements path) with
    | .error reason => failed reason
    | .ok (.file elements _) | .ok (.vacant elements) => .ok (.inside elements)
    | .ok (.device .null) | .ok .outside => .ok .elsewhere
    | .ok (.device .full) => .ok .full
    | .ok .directory => failed .isDirectory

end Directory

end Derivations
