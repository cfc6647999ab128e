import PipelineDoc.Report

/-!
# Access to files

The program asks three things of the file system: whether a name stands for something, what a file
holds, and to store a text in a file. A `FileAccess` gives the answers in a monad. `FileTree` is a
file system as a value, seen from a working directory.

A *path* is a list of parts. It starts at the working directory; to leave it, it starts with `..`,
or with `/` for the root of the file system. Other parts are names.
-/

namespace PipelineDoc

/-- What the program asks of the file system. -/
structure FileAccess (m : Type → Type) where
  /-- Whether there is a file or a directory of a name. -/
  isPresent : Text → m Bool
  /-- The content of a file. -/
  read : Text → m (Except FileFault ByteArray)
  /-- Stores a text in a file, which is made if need be. -/
  write : Text → Text → m (Except FileFault Unit)

/-- The contents of files, by their paths. A directory is there if a file is below it; the working
directory, those above it and the root are always there. -/
structure FileTree where
  files : List (List Text × ByteArray)

/-- What stands at a place of a file tree. -/
inductive Entry where
  | directory
  | file (path : List Text) (content : ByteArray)
  /-- Nothing, in a directory. -/
  | vacant (path : List Text)

namespace FileTree

/-- The parts of a name, between its slashes. -/
def parts : Text → List Text
  | [] => [[]]
  | c :: cs =>
    match parts cs with
    | [] => [[c]]
    | p :: ps => if c = '/' then [] :: p :: ps else (c :: p) :: ps

/-- The part that leads up. -/
def up : Text := ['.', '.']

/-- The root of the file system, as a part of a path. -/
def root : Text := ['/']

/-- The directory above a directory; the root is above itself. -/
def parent (directory : List Text) : List Text :=
  if directory = [root] then directory
  else if directory.all (· == up) then directory ++ [up]
  else directory.dropLast

/-- Whether a directory stands at a path. -/
def isDirectory (tree : FileTree) (path : List Text) : Bool :=
  path.all (· == up) || path == [root] ||
    tree.files.any fun (file, _) => path.isPrefixOf file && path != file

/-- How many bytes a part of a name may have. -/
def partLimit : Nat := 255

/-- How many bytes a name may have. -/
def nameLimit : Nat := 4095

/-- Follows the parts of a name from a directory on. -/
def follow (tree : FileTree) (directory : List Text) : List Text → Except FileFault Entry
  | [] => .ok .directory
  | part :: rest =>
    if part = ['.'] then tree.follow directory rest
    else if part = up then tree.follow (parent directory) rest
    else if partLimit < Text.byteLength part then .error .nameTooLong
    else
      let path := directory ++ [part]
      match tree.files.lookup path with
      | some content => if rest.isEmpty then .ok (.file path content) else .error .notDirectory
      | none =>
        if tree.isDirectory path then tree.follow path rest
        else if rest.isEmpty then .ok (.vacant path)
        else .error .missing

/-- Where a name starts: at the root, or at the working directory. -/
def start (name : Text) : List Text := if name.head? = some '/' then [root] else []

/-- The parts of a name that are not empty. -/
def steps (name : Text) : List Text := (parts name).filter fun part => !part.isEmpty

/-- Where some steps lead from the start of a name. Whether it can be a name at all is looked at
first. -/
def reach (tree : FileTree) (name : Text) (steps : List Text) : Except FileFault Entry :=
  if name.any fun c => c.toNat == 0 then .error .badName
  else if nameLimit < Text.byteLength name then .error .nameTooLong
  else if name.isEmpty then .error .missing
  else tree.follow (start name) steps

/-- What a name stands for. -/
def entry (tree : FileTree) (name : Text) : Except FileFault Entry := tree.reach name (steps name)

/-- Whether a name asks for a directory, by a slash at its end. -/
def asksDirectory (name : Text) : Bool := name.getLast? == some '/'

/-- Whether a name stands for something. -/
def isPresent (tree : FileTree) (name : Text) : Bool :=
  match tree.entry name with
  | .ok .directory => true
  | .ok (.file ..) => !asksDirectory name
  | _ => false

/-- The content of a file. -/
def read (tree : FileTree) (name : Text) : Except FileFault ByteArray :=
  match tree.entry name with
  | .ok .directory => .error .isDirectory
  | .ok (.file _ content) => if asksDirectory name then .error .notDirectory else .ok content
  | .ok (.vacant _) => .error .missing
  | .error fault => .error fault

/-- What is wrong with storing a text under a name that asks for a directory. The last part of the
name is not looked at; it is enough that the directory that it would be in is there. -/
def directoryFault (tree : FileTree) (name : Text) : FileFault :=
  match tree.reach name (steps name).dropLast with
  | .ok .directory => .isDirectory
  | .ok (.file ..) => .notDirectory
  | .ok (.vacant _) => .missing
  | .error fault => fault

/-- Stores a text in a file: in its place if it is there, and after the others if not. -/
def write (tree : FileTree) (name : Text) (t : Text) : Except FileFault FileTree :=
  let content := (String.ofList t).toUTF8
  if asksDirectory name then .error (tree.directoryFault name)
  else
    match tree.entry name with
    | .error fault => .error fault
    | .ok .directory => .error .isDirectory
    | .ok (.file path _) =>
      .ok ⟨tree.files.map fun (file, old) => if file = path then (file, content) else (file, old)⟩
    | .ok (.vacant path) => .ok ⟨tree.files ++ [(path, content)]⟩

/-- The file tree with the given files, by their names. -/
def ofFiles (files : List (Text × ByteArray)) : FileTree :=
  ⟨files.map fun (name, content) =>
    (start name ++ (steps name).filter fun part => part != ['.'], content)⟩

/-- The name of a file. -/
def nameOf (path : List Text) : Text := ['/'].intercalate path

/-- Whether a path stays below the working directory. -/
def isInside (path : List Text) : Bool := path.head? != some up && path.head? != some root

/-- The files below the working directory that are not in another tree, or not with the same
content. -/
def changesSince (tree before : FileTree) : List (Text × ByteArray) :=
  tree.files.filterMap fun (path, content) =>
    if !isInside path || before.files.lookup path == some content then none
    else some (nameOf path, content)

end FileTree

end PipelineDoc
