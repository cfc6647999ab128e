import PipelineDoc.CommandLine.FileAccess
import PipelineDoc.Settings.File

/-!
# Hosts

A *host* is what the program runs on: the files, the two streams that it prints on, and the library
that reads settings files and writes values. Any of them can refuse what is asked, except standard
output, which the program does not survive.

`FileTree.access` is a host that keeps a file tree and takes whatever is printed.
-/

namespace PipelineDoc

/-- The reader and the writer that the program calls. -/
structure Library where
  /-- The settings that a text stands for, or what is wrong with the text. -/
  parseSettings : Text → Except String Settings
  /-- The written form of a value. -/
  writeValue : Value → Except FileFault Text

/-- The library with the reader and the writer that are defined here. What is wrong with a text is
not told. -/
def Library.standard : Library where
  parseSettings t :=
    match Settings.parse? t with
    | some settings => .ok settings
    | none => .error ""
  writeValue v := .ok (v.pretty 0)

/-- What the program runs on. -/
structure Host (m : Type → Type) extends FileAccess m, Library where
  /-- Prints a text on standard output. -/
  print : Text → m Unit
  /-- Prints a report on standard error. -/
  warn : Report → m (Except FileFault Unit)

/-- A host that keeps a file tree as its state. A write that fails leaves the tree as it was. -/
def FileTree.access : Host (StateM FileTree) where
  isPresent name := return (← get).isPresent name
  read name := return (← get).read name
  write name t := do
    match (← get).write name t with
    | .ok tree =>
      set tree
      return .ok ()
    | .error fault => return .error fault
  toLibrary := .standard
  print _ := return ()
  warn _ := return .ok ()

end PipelineDoc
