import Splice.Text.Basic

/-!
# Files

What reading a file by its name can lead to, and a directory tree that is held in memory. A name
is normalized before it is used: empty parts and single dots are dropped, double dots are kept.

* `FilePath.normalize`: the normalized name.
* `FilePath.isUsable`: whether a file can have a name at all.
* `FileTree.read`: the bytes of a file of the tree.
-/

namespace Splice

/-- Why a file cannot be read. -/
inductive FileFault
  | missing | isDirectory | notDirectory
  /-- Another reason, in the words of the system. -/
  | other (reason : Text)
deriving DecidableEq, Inhabited

namespace FileFault

/-- The wording of each fault. -/
def message : FileFault → Text
  | missing => "No such file or directory"
  | isDirectory => "Is a directory"
  | notDirectory => "Not a directory"
  | other reason => reason

end FileFault

/-- A way to read files. -/
abbrev ReadFile := Text → Except FileFault ByteArray

namespace FilePath

/-- The parts of a name between its slashes. -/
def split : Text → List Text
  | [] => [[]]
  | c :: rest =>
    if c = '/' then [] :: split rest
    else match split rest with
      | part :: parts => (c :: part) :: parts
      | [] => [[c]]

/-- The part that stands for the directory that it is in. -/
def current : Text := "."

/-- The part that leads to the directory above. -/
def parent : Text := ".."

/-- The parts that say something. -/
def parts (name : Text) : List Text := (split name).filter fun part => part ≠ [] ∧ part ≠ current

/-- The slashes at the start of a name that make it absolute: two of them are not the same as one,
but more of them are. -/
def root (name : Text) : Text :=
  match (name.takeWhile fun c : CodePoint => c = '/').length with
  | 0 => []
  | 2 => ['/', '/']
  | _ => ['/']

/-- The parts of a name with slashes between them. -/
def join : List Text → Text
  | [] => []
  | [part] => part
  | part :: rest => part ++ ↑ '/' :: join rest

/-- The normalized name. An empty name is the current directory. -/
def normalize (name : Text) : Text :=
  match root name ++ join (parts name) with
  | [] => current
  | t => t

/-- What may stand in the name of a file. A byte that is no part of a text is given as one of the
surrogates from `U+DC80` to `U+DCFF`. -/
def isNameChar : CodePoint → Bool
  | .scalar c => c ≠ '\x00'
  | .surrogate index => 0x480 ≤ index.val && index.val < 0x500

/-- Whether a file can have a name. -/
def isUsable (name : Text) : Bool := name.all isNameChar

end FilePath

/-- A directory that holds only the named files and the directories on the way to them. -/
structure FileTree where
  files : List (List Text × ByteArray)

namespace FileTree

/-- A tree of files with their names. -/
def ofFiles (files : List (Text × ByteArray)) : FileTree :=
  ⟨files.map fun (name, bytes) => (FilePath.parts name, bytes)⟩

/-- The bytes of a file, by its parts. -/
def file? (t : FileTree) (path : List Text) : Option ByteArray := t.files.lookup path

/-- Whether there is a directory. -/
def isDirectory (t : FileTree) (path : List Text) : Bool :=
  path = [] || t.files.any fun (name, _) => path.length < name.length && path.isPrefixOf name

/-- What is found on the way along `rest` outside the tree, where nothing is known but that there
are directories above it. -/
def outside (rest : List Text) : FileFault :=
  if rest.all (· = FilePath.parent) then .isDirectory else .missing

/-- Follows the parts of a name from the directory `here`. A file cannot be entered, and whatever
is entered has to be there. -/
def follow (t : FileTree) (here : List Text) : List Text → Except FileFault (List Text)
  | [] => .ok here
  | part :: rest =>
    if (t.file? here).isSome then .error .notDirectory
    else if !t.isDirectory here then .error .missing
    else if part = FilePath.parent then
      if here = [] then .error (outside rest) else follow t here.dropLast rest
    else follow t (here ++ [part]) rest

/-- The bytes of a file of the tree. An absolute name leads out of it. -/
def read (t : FileTree) (name : Text) : Except FileFault ByteArray := do
  let parts := FilePath.parts name
  if FilePath.root name ≠ [] then throw (outside parts)
  let path ← t.follow [] parts
  match t.file? path with
  | some bytes => return bytes
  | none => throw (if t.isDirectory path then .isDirectory else .missing)

end FileTree

end Splice
