import Mathlib.Data.Finset.Insert
import Mathlib.Data.Fintype.EquivFin
import Mathlib.Logic.Function.Basic

/-!
# A file system as a process sees it

Files and directories by path, with the permissions they grant an unprivileged
process, and the calls `open`, `close` and `unlink`: every directory on the way
to a path must be searchable, creating and removing an entry needs write
permission on its directory, and in a sticky directory only the owner of the
file or of the directory removes it. A new descriptor is the lowest unused one.
-/

namespace FileSystem

/-- A regular file, with what it grants the process and whether the process owns it. -/
structure File where
  contents : List UInt8
  readable : Bool
  writable : Bool
  owned : Bool
  deriving DecidableEq

/-- A directory, with what it grants the process. -/
structure Directory where
  searchable : Bool
  writable : Bool
  sticky : Bool
  owned : Bool
  deriving DecidableEq

inductive Node
  | file (file : File)
  | directory (directory : Directory)
  deriving DecidableEq

variable {α : Type*}

/-- What stands under each path; a path lists its components from the last to the first. -/
abbrev FileTree (α : Type*) := List α → Option Node

/-- The directory under a path, if the process may search it and all above it. -/
def resolve (tree : FileTree α) : List α → Option Directory
  | [] =>
    match tree [] with
    | some (.directory d) => if d.searchable then some d else none
    | _ => none
  | name :: above =>
    match resolve tree above, tree (name :: above) with
    | some _, some (.directory d) => if d.searchable then some d else none
    | _, _ => none

/-- The directory that holds a path's last component. -/
def parent (tree : FileTree α) : List α → Option Directory
  | [] => none
  | _ :: above => resolve tree above

/-- The access modes of `open`. -/
inductive Access
  | readOnly
  | writeOnly
  | readWrite
  deriving DecidableEq

def File.allows (f : File) : Access → Bool
  | .readOnly => f.readable
  | .writeOnly => f.writable
  | .readWrite => f.readable && f.writable

section Calls

variable [DecidableEq α]

/-- The tree after a successful `open`; `created` is the file that `O_CREAT`
makes where there is none. A directory is opened neither for writing nor with
`O_CREAT`, and no other way is needed here. -/
def openPath (tree : FileTree α) (path : List α) (access : Access) (created : Option File) :
    Option (FileTree α) :=
  match parent tree path with
  | none => none
  | some d =>
    match tree path, created with
    | some (.file f), _ => if f.allows access then some tree else none
    | some (.directory _), _ => none
    | none, some f => if d.writable then some (Function.update tree path (some (.file f))) else none
    | none, none => none

/-- The tree after `unlink`, which leaves it as it is where it fails. -/
def unlinkPath (tree : FileTree α) (path : List α) : FileTree α :=
  match parent tree path, tree path with
  | some d, some (.file f) =>
    if d.writable && (!d.sticky || f.owned || d.owned) then Function.update tree path none else tree
  | _, _ => tree

/-- The lowest descriptor that is not in use. -/
def lowestUnused (descriptors : Finset Nat) : Nat :=
  Nat.find (Infinite.exists_notMem_finset descriptors)

/-- The files, the open descriptors, and the owner's bits in the file mode mask. -/
structure Process (α : Type*) where
  tree : FileTree α
  descriptors : Finset Nat
  maskRead : Bool
  maskWrite : Bool

namespace Process

/-- An empty file of the process, created with mode `S_IRWXU`. -/
def newFile (s : Process α) : File := ⟨[], !s.maskRead, !s.maskWrite, true⟩

/-- `open`, with or without `O_CREAT`; an error is -1. -/
def openFile (s : Process α) (path : List α) (access : Access) (creat : Bool) :
    Int × Process α :=
  match openPath s.tree path access (if creat then some s.newFile else none) with
  | some tree => (lowestUnused s.descriptors,
      { s with tree, descriptors := insert (lowestUnused s.descriptors) s.descriptors })
  | none => (-1, s)

/-- `close`. -/
def close (s : Process α) (filedes : Int) : Process α :=
  { s with descriptors := s.descriptors.erase filedes.toNat }

/-- `unlink`. -/
def unlink (s : Process α) (path : List α) : Process α :=
  { s with tree := unlinkPath s.tree path }

end Process

/-! ## Rules -/

omit [DecidableEq α] in
/-- Resolving a path looks only at the path and at what is above it. -/
theorem resolve_congr {tree tree' : FileTree α} {path : List α}
    (h : ∀ above, above <:+ path → tree above = tree' above) :
    resolve tree path = resolve tree' path := by
  induction path with
  | nil => rw [resolve, resolve, h [] (List.suffix_refl [])]
  | cons name above ih =>
    have habove := ih fun p hp => h p (hp.trans (List.suffix_cons name above))
    rw [resolve, resolve, habove, h _ (List.suffix_refl _)]

/-- Changing an entry does not change its directory. -/
theorem parent_update (tree : FileTree α) (path : List α) (node : Option Node) :
    parent (Function.update tree path node) path = parent tree path := by
  cases path with
  | nil => rfl
  | cons name above =>
    apply resolve_congr
    intro p hp
    apply Function.update_of_ne
    rintro rfl
    exact absurd hp.length_le (Nat.not_succ_le_self above.length)

theorem openPath_of_parent_none {tree : FileTree α} {path : List α} (access : Access)
    (created : Option File) (hparent : parent tree path = none) :
    openPath tree path access created = none := by
  rw [openPath, hparent]

theorem openPath_of_directory {tree : FileTree α} {path : List α} {d d' : Directory}
    (access : Access) (created : Option File) (hparent : parent tree path = some d)
    (hdirectory : tree path = some (.directory d')) :
    openPath tree path access created = none := by
  rw [openPath, hparent, hdirectory]

theorem openPath_of_missing {tree : FileTree α} {path : List α} {d : Directory} (access : Access)
    (created : Option File) (hparent : parent tree path = some d) (hnone : tree path = none) :
    openPath tree path access created =
      created.bind fun f =>
        if d.writable then some (Function.update tree path (some (.file f))) else none := by
  rw [openPath, hparent, hnone]
  cases created <;> rfl

theorem openPath_of_file {tree : FileTree α} {path : List α} {d : Directory} {f : File}
    (access : Access) (created : Option File) (hparent : parent tree path = some d)
    (hfile : tree path = some (.file f)) :
    openPath tree path access created = if f.allows access then some tree else none := by
  rw [openPath, hparent, hfile]

/-- Removing a file the process has just created gives the tree back. -/
theorem unlinkPath_created {tree : FileTree α} {path : List α} {d : Directory} {f : File}
    (hparent : parent tree path = some d) (hnone : tree path = none) (hwritable : d.writable)
    (howned : f.owned) : unlinkPath (Function.update tree path (some (.file f))) path = tree := by
  rw [unlinkPath, parent_update, hparent, Function.update_self]
  simp only [hwritable, howned, Bool.or_true, Bool.true_or, Bool.and_true, if_true,
    Function.update_idem]
  rw [← hnone, Function.update_eq_self]

theorem lowestUnused_notMem (descriptors : Finset Nat) :
    lowestUnused descriptors ∉ descriptors :=
  Nat.find_spec (Infinite.exists_notMem_finset descriptors)

/-- Without `O_CREAT` nothing changes. -/
theorem openPath_none {tree tree' : FileTree α} {path : List α} {access : Access}
    (h : openPath tree path access none = some tree') : tree' = tree := by
  rw [openPath] at h
  cases hparent : parent tree path with
  | none => simp [hparent] at h
  | some d =>
    cases hnode : tree path with
    | none => simp [hparent, hnode] at h
    | some node =>
      cases node with
      | file f =>
        simp only [hparent, hnode, Option.ite_none_right_eq_some, Option.some.injEq] at h
        exact h.2.symm
      | directory d' => simp [hparent, hnode] at h

namespace Process

variable {s : Process α} {path : List α} {access : Access} (creat : Bool)

theorem openFile_of_none
    (h : openPath s.tree path access (if creat then some s.newFile else none) = none) :
    s.openFile path access creat = (-1, s) := by
  rw [openFile, h]

/-- With descriptor 0 in use, a successful `open` returns a positive one. -/
theorem openFile_of_some (hzero : 0 ∈ s.descriptors)
    {tree : FileTree α}
    (h : openPath s.tree path access (if creat then some s.newFile else none) = some tree) :
    0 < (s.openFile path access creat).1 ∧ (s.openFile path access creat).2.tree = tree := by
  have hne : lowestUnused s.descriptors ≠ 0 :=
    fun he => lowestUnused_notMem s.descriptors (he ▸ hzero)
  rw [openFile, h]
  exact ⟨by dsimp only; omega, rfl⟩

/-- `open` keeps the descriptors in use. -/
theorem subset_descriptors_openFile (s : Process α) (path : List α) (access : Access)
    (creat : Bool) : s.descriptors ⊆ (s.openFile path access creat).2.descriptors := by
  rw [openFile]
  split
  · exact Finset.subset_insert _ _
  · exact Finset.Subset.refl _

/-- Closing what `open` returned leaves those that were in use before. -/
theorem subset_descriptors_close (s : Process α) (path : List α) (access : Access)
    (creat : Bool) (hpos : 0 < (s.openFile path access creat).1) : s.descriptors ⊆
      ((s.openFile path access creat).2.close (s.openFile path access creat).1).descriptors := by
  rw [openFile] at hpos ⊢
  split
  · rw [close]
    dsimp only
    rw [Int.toNat_natCast, Finset.erase_insert (lowestUnused_notMem s.descriptors)]
  · rename_i h
    rw [h] at hpos
    exact absurd hpos (by dsimp only; omega)

end Process

/-- A process may open a path for writing, or create a file there. -/
def CanOpenForWriting (tree : FileTree α) (path : List α) : Prop :=
  ∀ created, (openPath tree path .writeOnly (some created)).isSome

end Calls

end FileSystem
