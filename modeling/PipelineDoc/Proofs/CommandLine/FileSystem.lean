import PipelineDoc.CommandLine.Program

/-!
# File systems

A *file system* answers the three questions that the program asks about files, in every state. To
look at files changes nothing, and to store a text gives a new state or fails; a store that fails
leaves no trace, since it gives no state. Nothing else is asked of a file system, so what is shown
for all of them holds however files are named, found, protected or shared. `FileTree.system` is one
of them.

Two states *agree except* at some names when they differ at most in what the files with these names
hold. A file tree in which one file gets another content agrees with the old one except at the names
that lead to this file (`FileTree.agreeExcept_withContent`).
-/

namespace PipelineDoc

/-- What a file system answers in each state, and the state that storing a text leaves. -/
structure FileSystem (σ : Type) where
  isPresent : σ → Text → Bool
  read : σ → Text → Except FileFault ByteArray
  write : σ → Text → Text → Except FileFault σ

namespace FileSystem

variable {σ : Type} (fs : FileSystem σ)

/-! ### What the files hold -/

/-- A name stands for a file that holds a text. -/
def Holds (s : σ) (name t : Text) : Prop := fs.read s name = .ok (String.ofList t).toUTF8

/-- The settings file that a run selects: the one that the invocation names, whether it is there or
not, else the first that is there of the one in the working directory and the one of the platform.
-/
def selected? (s : σ) (platform explicit : Option Text) : Option Text :=
  match explicit with
  | some name => some name
  | none => (Program.localSettings :: platform.toList).find? (fs.isPresent s)

/-- The text that a file holds, or what keeps it from being read. -/
def text (s : σ) (name : Text) : Except Failure Text :=
  match fs.read s name with
  | .error fault => .error (.file fault)
  | .ok content =>
    match String.fromUTF8? content with
    | some t => .ok t.toList
    | none => .error (.file .notText)

variable {fs}

theorem text_eq_ok_iff {s : σ} {name t : Text} : fs.text s name = .ok t ↔ fs.Holds s name t := by
  unfold text Holds
  cases hread : fs.read s name with
  | error fault => simp
  | ok content =>
    simp only [Except.ok.injEq]
    constructor
    · intro h
      split at h
      · next str hstr =>
        -- a text that was decoded is encoded by the bytes that it was decoded from
        simp only [String.fromUTF8?, Option.dite_none_right_eq_some, Option.some.injEq] at hstr
        obtain ⟨hvalid, rfl⟩ := hstr
        cases h
        rw [String.ofList_toList]
        rfl
      · cases h
    · rintro rfl
      have hdecode : String.fromUTF8? (String.ofList t).toUTF8 = some (String.ofList t) := by
        unfold String.fromUTF8?
        rw [String.toUTF8_eq_toByteArray, dif_pos (String.ofList t).isValidUTF8]
        rfl
      rw [hdecode]
      simp

/-! ### States that agree -/

variable (fs)

/-- Two states differ at most in what the files with some names hold: the same names stand for
something, all other files hold the same, and the same stores succeed. -/
structure AgreeExcept (names : Text → Prop) (s s' : σ) : Prop where
  isPresent : ∀ name, fs.isPresent s' name = fs.isPresent s name
  read : ∀ name, ¬ names name → fs.read s' name = fs.read s name
  write : ∀ name t, (fs.write s' name t).map (fun _ => ()) = (fs.write s name t).map fun _ => ()

variable {fs} {names : Text → Prop} {s s' : σ}

theorem AgreeExcept.selected? (h : fs.AgreeExcept names s s') (platform explicit : Option Text) :
    fs.selected? s' platform explicit = fs.selected? s platform explicit := by
  have hpresent : fs.isPresent s' = fs.isPresent s := funext h.isPresent
  unfold FileSystem.selected?
  rw [hpresent]

theorem AgreeExcept.text (h : fs.AgreeExcept names s s') {name : Text} (hname : ¬ names name) :
    fs.text s' name = fs.text s name := by
  unfold FileSystem.text
  rw [h.read name hname]

end FileSystem

/-! ### File trees -/

/-- What stands at a place when the file at a path has another content. -/
def Entry.withContent (path : List Text) (content : ByteArray) : Entry → Entry
  | .file place old => .file place (if place = path then content else old)
  | e => e

namespace FileTree

/-- File trees as a file system. -/
def system : FileSystem FileTree := ⟨isPresent, read, write⟩

/-- The tree in which the file at a path has another content. -/
def withContent (tree : FileTree) (path : List Text) (content : ByteArray) : FileTree :=
  ⟨tree.files.map fun (file, old) => if file = path then (file, content) else (file, old)⟩

/-- A name leads to the file at a path. -/
def LeadsTo (tree : FileTree) (path : List Text) (name : Text) : Prop :=
  ∃ content, tree.entry name = .ok (.file path content)

theorem not_leadsTo {tree : FileTree} {path place : List Text} {name : Text} {content : ByteArray}
    (h : tree.entry name = .ok (.file place content)) (hplace : place ≠ path) :
    ¬ tree.LeadsTo path name := by
  rintro ⟨content', h'⟩
  cases h.symm.trans h'
  exact hplace rfl

variable (tree : FileTree) (path : List Text) (content : ByteArray)

theorem lookup_withContent (file : List Text) :
    (tree.withContent path content).files.lookup file =
      (tree.files.lookup file).map fun old => if file = path then content else old := by
  unfold withContent
  induction tree.files with
  | nil => rfl
  | cons f files ih =>
    obtain ⟨other, old⟩ := f
    have hsame : ∀ new : ByteArray, (if other = path then (other, new) else (other, old)) =
        (other, if other = path then new else old) := fun new => by split <;> rfl
    simp only [List.map_cons, hsame, List.lookup_cons, ih]
    cases hfile : file == other with
    | true => rw [beq_iff_eq.mp hfile]; rfl
    | false => rfl

theorem isDirectory_withContent (directory : List Text) :
    (tree.withContent path content).isDirectory directory = tree.isDirectory directory := by
  unfold isDirectory withContent
  congr 1
  rw [List.any_map]
  congr 1
  funext f
  simp only [Function.comp_apply]
  split <;> rfl

/-- **Other content leads nowhere else**: names are followed by what is there, not by what it holds.
-/
theorem follow_withContent (directory steps : List Text) :
    (tree.withContent path content).follow directory steps =
      (tree.follow directory steps).map (Entry.withContent path content) := by
  induction steps generalizing directory with
  | nil => rfl
  | cons part rest ih =>
    simp only [follow, ih, lookup_withContent, isDirectory_withContent]
    split
    · rfl
    · split
      · rfl
      · split
        · rfl
        · cases tree.files.lookup (directory ++ [part]) with
          | some old => cases rest <;> rfl
          | none =>
            simp only [Option.map_none]
            split
            · rfl
            · split <;> rfl

theorem reach_withContent (name : Text) (steps : List Text) :
    (tree.withContent path content).reach name steps =
      (tree.reach name steps).map (Entry.withContent path content) := by
  simp only [reach, follow_withContent]
  split
  · rfl
  · split
    · rfl
    · split <;> rfl

theorem entry_withContent (name : Text) : (tree.withContent path content).entry name =
    (tree.entry name).map (Entry.withContent path content) := reach_withContent ..

/-- **A file with another content** is all that has changed. -/
theorem agreeExcept_withContent :
    system.AgreeExcept (tree.LeadsTo path) tree (tree.withContent path content) where
  isPresent name := by
    show (tree.withContent path content).isPresent name = tree.isPresent name
    unfold isPresent
    rw [entry_withContent]
    cases tree.entry name with
    | error fault => rfl
    | ok e => cases e <;> rfl
  read name hname := by
    show (tree.withContent path content).read name = tree.read name
    unfold read
    rw [entry_withContent]
    cases hentry : tree.entry name with
    | error fault => rfl
    | ok e =>
      cases e with
      | directory | vacant => rfl
      | file file old =>
        have hother : file ≠ path := fun h => hname ⟨old, h ▸ hentry⟩
        simp only [Except.map, Entry.withContent, if_neg hother]
  write name t := by
    show ((tree.withContent path content).write name t).map _ = (tree.write name t).map _
    unfold write directoryFault
    rw [entry_withContent, reach_withContent]
    split
    · cases tree.reach name (FileTree.steps name).dropLast with
      | error fault => rfl
      | ok e => cases e <;> rfl
    · cases tree.entry name with
      | error fault => rfl
      | ok e => cases e <;> rfl

end FileTree

end PipelineDoc
