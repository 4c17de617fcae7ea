import Mathlib.Data.List.Basic
import Rdf.Command.Files

/-!
Hosts: machines with files that a command runs on.

What a command can see of a host is a view. Reading leaves the view as it is, and so does writing
that fails; writing that does not fail changes the file at one place. A tree of files is a host.
-/

namespace Rdf.Command

/-- What can be seen of a machine: the working directory, standard input, the places that paths lead
to and the files at places. -/
structure View (κ : Type) where
  directory : List String
  input : List UInt8
  place? : Path → Option κ
  files : κ → Option (List UInt8)

namespace View

variable {κ : Type}

def fileAt (v : View κ) (path : Path) : Option (List UInt8) := (v.place? path).bind v.files

variable [DecidableEq κ] {v : View κ} {place other : κ} {bytes : List UInt8}

def withFile (v : View κ) (place : κ) (bytes : List UInt8) : View κ :=
  { v with files := fun other => if other = place then some bytes else v.files other }

theorem files_withFile : (v.withFile place bytes).files place = some bytes := if_pos rfl

theorem files_withFile_of_ne (h : other ≠ place) :
    (v.withFile place bytes).files other = v.files other := if_neg h

end View

/-- A machine whose state can be viewed. -/
structure Host (σ κ : Type) [DecidableEq κ] where
  system : System (StateM σ)
  view : σ → View κ
  directory_eq (s : σ) : (system.directory.run s).1 = (view s).directory
  view_directory (s : σ) : view (system.directory.run s).2 = view s
  input_eq (s : σ) : (system.input.run s).1 = (view s).input
  view_input (s : σ) : view (system.input.run s).2 = view s
  fileAt_of_readFile {path : Path} {s : σ} {bytes : List UInt8} :
    ((system.readFile path).run s).1 = .ok bytes → (view s).fileAt path = some bytes
  view_readFile (path : Path) (s : σ) : view ((system.readFile path).run s).2 = view s
  view_writeFile {path : Path} {text : String} {s : σ} :
    ((system.writeFile path text).run s).1 = .ok () → ∃ place, (view s).place? path = some place ∧
      view ((system.writeFile path text).run s).2 = (view s).withFile place text.toUTF8.toList
  view_writeFile_of_error {path : Path} {text : String} {s : σ} {fault : FileFault} :
    ((system.writeFile path text).run s).1 = .error fault →
      view ((system.writeFile path text).run s).2 = view s

namespace Host

variable {σ κ : Type} [DecidableEq κ]

/-- In every state with the view, the file at a path can be read and has the bytes. -/
def Gives (host : Host σ κ) (v : View κ) (path : Path) (bytes : List UInt8) : Prop :=
  ∀ s, host.view s = v → ((host.system.readFile path).run s).1 = .ok bytes

/-- In every state with the view, the text can be written to the path. -/
def Takes (host : Host σ κ) (v : View κ) (path : Path) (text : String) : Prop :=
  ∀ s, host.view s = v → ((host.system.writeFile path text).run s).1 = .ok ()

end Host

/-! ### Trees of files -/

namespace FileTree

variable {tree : FileTree} {place other : List String} {bytes : List UInt8}
  {files : List (List String × List UInt8)}

theorem lookup_setFile :
    (setFile place bytes files).lookup other =
      if other = place then some bytes else files.lookup other := by
  have hcons : ∀ (entry : List String × List UInt8) rest, (entry :: rest).lookup other =
      if other = entry.1 then some entry.2 else rest.lookup other := by
    intro entry rest
    rw [List.lookup_cons]
    by_cases he : other = entry.1
    · simp [he]
    · rw [beq_false_of_ne he, if_neg he]
  induction files with
  | nil => exact hcons (place, bytes) []
  | cons entry rest ih =>
    simp only [setFile]
    by_cases he : entry.1 = place
    · rw [if_pos he, hcons, hcons, he]
      by_cases ho : other = place <;> simp [ho]
    · rw [if_neg he, hcons, hcons, ih]
      by_cases ho : other = place
      · simp [ho, Ne.symm he]
      · simp [ho]

/-- The files have nothing to do with the directories that a path goes through. -/
theorem enter_withFiles (place parts : List String) :
    (enter { tree with files } place parts).toOption = (enter tree place parts).toOption := by
  have hdirectory : ∀ place, isDirectory { tree with files } place = isDirectory tree place :=
    fun _ => rfl
  induction parts generalizing place with
  | nil => rfl
  | cons part rest ih =>
    simp only [enter, hdirectory]
    split
    · exact ih _
    split
    · rfl
    split
    · exact ih _
    · split <;> split <;> rfl

theorem placeOf_withFiles (path : Path) :
    (placeOf { tree with files } path).toOption = (placeOf tree path).toOption := by
  have hbind : ∀ {ε α β : Type} (x : Except ε α) (f : α → Except ε β),
      (x >>= f).toOption = x.toOption.bind fun a => (f a).toOption := by
    intro ε α β x f
    cases x <;> rfl
  simp only [placeOf]
  cases pathFlaw? path with
  | some flaw => rfl
  | none => simp only [hbind, enter_withFiles]; rfl

def view (tree : FileTree) : View (List String) where
  directory := tree.workingDirectory
  input := tree.input
  place? path := (tree.placeOf path).toOption
  files place := tree.files.lookup place

/-- A tree in which a file has been set shows the file. -/
theorem view_setFile :
    view { tree with files := setFile place bytes tree.files } =
      (view tree).withFile place bytes := by
  simp only [view, View.withFile, placeOf_withFiles, lookup_setFile]

theorem run_writeFile (path : Path) (text : String) (tree : FileTree) :
    (system.writeFile path text).run tree =
      match tree.placeOf path with
      | .error flaw => (.error ⟨path, flaw⟩, tree)
      | .ok place => (.ok (), { tree with files := setFile place text.toUTF8.toList tree.files }) := by
  simp only [system]
  cases hplace : tree.placeOf path with
  | error flaw =>
    have hwrite : tree.write path text = .error ⟨path, flaw⟩ := by rw [write, hplace]
    simp [hwrite]
    rfl
  | ok place =>
    have hwrite : tree.write path text =
        .ok { tree with files := setFile place text.toUTF8.toList tree.files } := by
      rw [write, hplace]
    simp [hwrite]
    rfl

def host : Host FileTree (List String) where
  system := system
  view := view
  directory_eq _ := rfl
  view_directory _ := rfl
  input_eq _ := rfl
  view_input _ := rfl
  fileAt_of_readFile := by
    intro path tree bytes h
    change tree.read path = .ok bytes at h
    simp only [read] at h
    split at h
    · cases h
    · next place hplace =>
      split at h
      · next found hfound =>
        obtain rfl := Except.ok.inj h
        simp [View.fileAt, view, hplace, Except.toOption, hfound]
      · cases h
  view_readFile _ _ := rfl
  view_writeFile := by
    intro path text tree h
    rw [run_writeFile] at h ⊢
    cases hplace : tree.placeOf path with
    | error flaw =>
      rw [hplace] at h
      cases h
    | ok place => exact ⟨place, by simp [view, hplace, Except.toOption], view_setFile⟩
  view_writeFile_of_error := by
    intro path text tree fault h
    rw [run_writeFile] at h ⊢
    cases hplace : tree.placeOf path with
    | error flaw => rfl
    | ok place =>
      rw [hplace] at h
      cases h

/-- A tree gives the files that it has. -/
theorem gives_of_fileAt {path : Path} (h : (view tree).fileAt path = some bytes) :
    host.Gives (view tree) path bytes := by
  intro other hother
  rw [← hother] at h
  obtain ⟨place, hplace, hfile⟩ := Option.bind_eq_some_iff.1 h
  change (placeOf other path).toOption = some place at hplace
  change other.files.lookup place = some bytes at hfile
  change read other path = .ok bytes
  cases hfound : placeOf other path with
  | error flaw =>
    rw [hfound] at hplace
    cases hplace
  | ok found =>
    rw [hfound] at hplace
    obtain rfl := Option.some.inj hplace
    simp only [read, hfound, hfile]

/-- A tree takes a file where a path leads to a place for it. -/
theorem takes_of_place? {path : Path} (h : (view tree).place? path = some place) (text : String) :
    host.Takes (view tree) path text := by
  intro other hother
  rw [← hother] at h
  change ((system.writeFile path text).run other).1 = .ok ()
  rw [run_writeFile]
  cases hfound : placeOf other path with
  | error flaw =>
    have hnone : (placeOf other path).toOption = some place := h
    rw [hfound] at hnone
    cases hnone
  | ok found => rfl

end FileTree

end Rdf.Command
