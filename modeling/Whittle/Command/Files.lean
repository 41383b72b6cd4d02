import Whittle.Text

/-!
# Files and folders

A small model of a file tree, seen from a working folder.

* `Place.step`: follows one part of a path, which may be empty, `.` or `..`.
* `Folder.find`: what a path leads to.
* `Folder.read`, `Folder.write`: the text of a file, and the tree after a text is written.
* `Folder.sources`: the program files at and below a path.
* `Folder.changes`: the files that differ between two trees.
-/

namespace Whittle.Command

/-- Why a path cannot be read or written. -/
inductive FileError where
  | missing
  | isFolder
  | notFolder
  | notText
  /-- A name or a path has too many bytes. -/
  | tooLong
  /-- Any other cause, in the words of the system. -/
  | system (message : String)
deriving DecidableEq

/-- The wording of a cause. -/
def FileError.message : FileError → String
  | .missing => "No such file or directory (os error 2)"
  | .isFolder => "Is a directory (os error 21)"
  | .notFolder => "Not a directory (os error 20)"
  | .notText => "stream did not contain valid UTF-8"
  | .tooLong => "File name too long (os error 36)"
  | .system message => message

/-- What a file holds, as far as it can be read. -/
inductive Content where
  | text (t : Text)
  | unreadable (cause : FileError)
deriving DecidableEq

namespace Content

/-- The content of some bytes. -/
def ofBytes (bytes : ByteArray) : Content :=
  match String.fromUTF8? bytes with
  | some s => .text s.toList
  | none => .unreadable .notText

/-- The text of a content. -/
def read : Content → Except FileError Text
  | .text t => .ok t
  | .unreadable cause => .error cause

end Content

/-- A file or a folder. -/
inductive Entry where
  | file (content : Content)
  | folder (entries : List (String × Entry))

/-- The entries of a folder by name. -/
abbrev Folder := List (String × Entry)

/-- The parts of a path between its slashes. -/
def pathParts (path : Text) : List Text :=
  path.foldr (fun c parts =>
    if c = '/' then [] :: parts
    else match parts with
      | [] => [[c]]
      | part :: rest => (c :: part) :: rest) [[]]

/-- A path to something below another one. -/
def joinPath (path name : String) : String :=
  if path.toList.getLast? = some '/' then path ++ name else path ++ "/" ++ name

/-- Whether the name of a file is that of a program: it ends in `.c`, `.h` or `.i`, with something
before the dot. -/
def isSourceName (name : String) : Bool :=
  match name.toList.reverse with
  | c :: '.' :: _ :: _ => c = 'c' || c = 'h' || c = 'i'
  | _ => false

namespace Folder

/-- The entry with a name. -/
def entry? (f : Folder) (name : Text) : Option Entry := f.lookup (String.ofList name)

end Folder

/-- The greatest number of bytes in a name. -/
def maxNameSize : Nat := 255

/-- The greatest number of bytes in a path. -/
def maxPathSize : Nat := 4095

/-- Where a path leads. -/
inductive Place where
  /-- An entry of the tree. `above` holds the names and the folders on the way to it, the nearest
  first. -/
  | inside (above : List (Text × Folder)) (here : Entry)
  /-- A folder that the working folder is in, or the root. Nothing else is known outside. -/
  | outside

namespace Place

/-- What is at a place. -/
def entry : Place → Entry
  | .inside _ here => here
  | .outside => .folder []

/-- The folder at a place. -/
def folder (p : Place) : Except FileError Folder :=
  match p.entry with
  | .file _ => .error .notFolder
  | .folder f => .ok f

/-- The folder that a place is in. -/
def parent : Place → Place
  | .inside ((_, g) :: above) _ => .inside above (.folder g)
  | .inside [] _ | .outside => .outside

/-- The names on the way from the working folder to a place in the tree. -/
def names? : Place → Option (List String)
  | .inside above _ => some (above.map (String.ofList ·.1)).reverse
  | .outside => none

/-- The entry with a name in the folder at a place. -/
def enter (p : Place) (f : Folder) (name : Text) : Except FileError Place :=
  if maxNameSize < name.size then .error .tooLong
  else
    match p, f.entry? name with
    | .inside above _, some e => .ok (.inside ((name, f) :: above) e)
    | _, _ => .error .missing

/-- Follow one part of a path, which must start at a folder. -/
def step (p : Place) (part : Text) : Except FileError Place := do
  let f ← p.folder
  if part = [] || part = ['.'] then .ok p
  else if part = ['.', '.'] then .ok p.parent
  else p.enter f part

end Place

/-- A path as that of a file to write. -/
structure Target where
  /-- The parts before the last name. -/
  above : List Text
  name : Text
  /-- Whether the path can only be that of a folder: it ends in a slash, `.` or `..`. -/
  isFolder : Bool

/-- The target of some parts of a path. There is none if they are all empty. -/
def Target.ofParts? (parts : List Text) : Option Target :=
  match parts.reverse.dropWhile (·.isEmpty) with
  | [] => none
  | name :: above =>
    some ⟨above.reverse, name, parts.getLast? = some [] || name = ['.'] || name = ['.', '.']⟩

namespace Folder

/-- Where a path starts: at the root if it begins with a slash, else at the working folder. -/
def start (f : Folder) (path : Text) : Except FileError Place :=
  if maxPathSize < path.size then .error .tooLong
  else
    match path with
    | [] => .error .missing
    | '/' :: _ => .ok .outside
    | _ => .ok (.inside [] (.folder f))

/-- What a path leads to. -/
def find (f : Folder) (path : String) : Except FileError Entry := do
  let place ← (pathParts path.toList).foldlM Place.step (← f.start path.toList)
  return place.entry

/-- The text of the file at a path. -/
def read (f : Folder) (path : String) : Except FileError Text :=
  match f.find path with
  | .error e => .error e
  | .ok (.folder _) => .error .isFolder
  | .ok (.file content) => content.read

/-- Set the entry with a name. -/
def set (name : String) (e : Entry) : Folder → Folder
  | [] => [(name, e)]
  | (n, old) :: rest => if n = name then (n, e) :: rest else (n, old) :: set name e rest

/-- Put an entry at the end of some names, making the folders on the way. -/
def put (f : Folder) (names : List String) (e : Entry) : Folder :=
  match names with
  | [] => f
  | [name] => f.set name e
  | name :: rest =>
    match f.lookup name with
    | some (.folder g) => f.set name (.folder (put g rest e))
    | _ => f.set name (.folder (put [] rest e))

/-- The tree after a text is written to a path. Missing files are made, missing folders are not. A
file outside leaves the tree as it is. -/
def write (f : Folder) (path : String) (t : Text) : Except FileError Folder := do
  let start ← f.start path.toList
  match Target.ofParts? (pathParts path.toList) with
  | none => .error .isFolder
  | some target =>
    let place ← target.above.foldlM Place.step start
    let g ← place.folder
    if target.isFolder then .error .isFolder
    else if maxNameSize < target.name.size then .error .tooLong
    else
      match g.entry? target.name, place.names? with
      | some (.folder _), _ => .error .isFolder
      | _, some names => .ok (f.put (names ++ [String.ofList target.name]) (.file (.text t)))
      | _, none => .ok f

end Folder

mutual

/-- The program files in an entry that a path leads to; `isNamed` says that the path is that of the
command line. -/
def Entry.sources (isNamed : Bool) (path name : String) : Entry → List (String × Content)
  | .file content => if isNamed || isSourceName name then [(path, content)] else []
  | .folder entries =>
    ((Entry.sourcesBelow path entries).mergeSort fun a b => decide (a.1 ≤ b.1)).flatMap (·.2)

/-- The program files below a path, by the name of the entry they are in. -/
def Entry.sourcesBelow (path : String) :
    List (String × Entry) → List (String × List (String × Content))
  | [] => []
  | (name, e) :: rest =>
    (name, e.sources false (joinPath path name) name) :: Entry.sourcesBelow path rest

end

mutual

/-- The files of an entry with their paths. -/
def Entry.files (path : String) : Entry → List (String × Content)
  | .file content => [(path, content)]
  | .folder entries => Entry.filesBelow (some path) entries

/-- The files of some entries with their paths. -/
def Entry.filesBelow (path : Option String) : List (String × Entry) → List (String × Content)
  | [] => []
  | (name, e) :: rest =>
    e.files ((path.map (joinPath · name)).getD name) ++ Entry.filesBelow path rest

end

namespace Folder

/-- The program files at and below a path, in the order of their names. A path that leads nowhere
has none. -/
def sources (f : Folder) (path : String) : List (String × Content) :=
  match f.find path with
  | .ok e => e.sources true path path
  | .error _ => []

/-- All files with their paths. -/
def files (f : Folder) : List (String × Content) := Entry.filesBelow none f

/-- The files of `after` that `before` does not have, or not with that content. -/
def changes (before after : Folder) : List (String × Content) :=
  after.files.filter fun file => !before.files.contains file

end Folder

end Whittle.Command
