import Meguro.Core.FileSystem
import Meguro.Text.CString

/-!
# The probe of the output files

Before the work starts, `main` probes the map output and the reduce output: a
file that opens for reading and writing is fine, otherwise the probe tries to
create one and removes it again. Where the file exists and may only be read, the
second `open` succeeds although nothing was created, and the probe removes the
file, or reports it writable if it cannot. In every other state of the file
system the probe changes nothing and is right.
-/

namespace Meguro

open FileSystem

/-- Paths of file names. -/
abbrev PathName := List CString

/-- `check_write_permissions`. -/
def checkWritePermissions (s : Process CString) (filename : PathName) : Bool × Process CString :=
  let (filedes, s) := s.openFile filename .readWrite false
  if filedes > 0 then (true, s)
  else
    let (filedes, s) := s.openFile filename .readOnly true
    if filedes > 0 then (true, (s.close filedes).unlink filename)
    else (false, s)

/-- The probe changes nothing and is right. -/
structure ProbeHarmless (s : Process CString) (filename : PathName) : Prop where
  unchanged : (checkWritePermissions s filename).2.tree = s.tree
  right : (checkWritePermissions s filename).1 = true → CanOpenForWriting s.tree filename

/-- A file that can be reached and read, and not written. -/
def IsReadOnly (tree : FileTree CString) (path : PathName) : Prop :=
  (parent tree path).isSome ∧
    ∃ f, tree path = some (.file f) ∧ f.readable = true ∧ f.writable = false

section Probe

variable {s : Process CString} {filename : PathName}

/-- The first `open` succeeds. -/
theorem checkWritePermissions_of_open (hzero : 0 ∈ s.descriptors) {tree : FileTree CString}
    (h : openPath s.tree filename .readWrite none = some tree) :
    (checkWritePermissions s filename).1 = true ∧
      (checkWritePermissions s filename).2.tree = s.tree := by
  obtain ⟨hpos, htree⟩ := Process.openFile_of_some false hzero h
  rw [checkWritePermissions]
  simp only [gt_iff_lt, hpos, if_true, true_and]
  rw [htree, openPath_none h]

/-- The first `open` fails and the second succeeds. -/
theorem checkWritePermissions_of_create (hzero : 0 ∈ s.descriptors) {tree : FileTree CString}
    (hfirst : openPath s.tree filename .readWrite none = none)
    (h : openPath s.tree filename .readOnly (some s.newFile) = some tree) :
    (checkWritePermissions s filename).1 = true ∧
      (checkWritePermissions s filename).2.tree = unlinkPath tree filename := by
  have hfail := Process.openFile_of_none false hfirst
  obtain ⟨hpos, htree⟩ := Process.openFile_of_some true hzero h
  rw [checkWritePermissions, hfail]
  simp only [gt_iff_lt, hpos, if_true, true_and, Int.reduceNeg, Int.reduceLT, if_false]
  rw [Process.unlink, Process.close, htree]

/-- Both fail. -/
theorem checkWritePermissions_of_none
    (hfirst : openPath s.tree filename .readWrite none = none)
    (h : openPath s.tree filename .readOnly (some s.newFile) = none) :
    checkWritePermissions s filename = (false, s) := by
  have hfail := Process.openFile_of_none false hfirst
  have hfail' := Process.openFile_of_none true h
  rw [checkWritePermissions, hfail]
  simp only [hfail', gt_iff_lt, Int.reduceNeg, Int.reduceLT, if_false]

/-- The probe answers yes to a file that can only be read, and tries to remove it. -/
theorem checkWritePermissions_of_isReadOnly (hzero : 0 ∈ s.descriptors)
    (h : IsReadOnly s.tree filename) : (checkWritePermissions s filename).1 = true ∧
      (checkWritePermissions s filename).2.tree = unlinkPath s.tree filename := by
  obtain ⟨hparent, f, hfile, hreadable, hwritable⟩ := h
  obtain ⟨d, hparent⟩ := Option.isSome_iff_exists.mp hparent
  have hopen := fun access created => openPath_of_file access created hparent hfile
  apply checkWritePermissions_of_create hzero
  · rw [hopen, File.allows, hwritable, Bool.and_false, if_neg Bool.false_ne_true]
  · rw [hopen, File.allows, hreadable, if_pos rfl]

/-- A probe that answers no has changed nothing. -/
theorem probeHarmless_of_none (hfirst : openPath s.tree filename .readWrite none = none)
    (h : openPath s.tree filename .readOnly (some s.newFile) = none) :
    ProbeHarmless s filename := by
  have hcheck := checkWritePermissions_of_none hfirst h
  exact ⟨by rw [hcheck], by simp [hcheck]⟩

/-- A missing file is created and removed again, or cannot be created. -/
theorem probeHarmless_of_missing (hzero : 0 ∈ s.descriptors) {d : Directory}
    (hparent : parent s.tree filename = some d) (hnone : s.tree filename = none) :
    ProbeHarmless s filename := by
  have hopen := fun access created => openPath_of_missing access created hparent hnone
  cases hwritable : d.writable with
  | false =>
    apply probeHarmless_of_none
    · exact hopen .readWrite none
    · rw [hopen, hwritable]
      rfl
  | true =>
    have hsecond : openPath s.tree filename .readOnly (some s.newFile) =
        some (Function.update s.tree filename (some (.file s.newFile))) := by
      rw [hopen, hwritable]
      rfl
    have hcheck := (checkWritePermissions_of_create hzero (hopen .readWrite none) hsecond).2
    refine ⟨?_, fun _ created => ?_⟩
    · rw [hcheck, unlinkPath_created hparent hnone hwritable rfl]
    · rw [hopen, hwritable]
      rfl

/-- A file is left alone, unless it can only be read. -/
theorem probeHarmless_of_file (hzero : 0 ∈ s.descriptors) {d : Directory} {f : File}
    (hparent : parent s.tree filename = some d) (hfile : s.tree filename = some (.file f)) :
    ProbeHarmless s filename ↔ ¬ (f.readable = true ∧ f.writable = false) := by
  have hopen := fun access created => openPath_of_file access created hparent hfile
  cases hreadable : f.readable with
  | false =>
    refine iff_of_true (probeHarmless_of_none ?_ ?_) (by simp)
    · rw [hopen, File.allows, hreadable, Bool.false_and, if_neg Bool.false_ne_true]
    · rw [hopen, File.allows, hreadable, if_neg Bool.false_ne_true]
  | true =>
    cases hwritable : f.writable with
    | true =>
      have hfirst : openPath s.tree filename .readWrite none = some s.tree := by
        rw [hopen, File.allows, hreadable, hwritable]
        rfl
      have hcheck := (checkWritePermissions_of_open hzero hfirst).2
      refine iff_of_true ⟨hcheck, fun _ created => ?_⟩ (by simp)
      rw [hopen, File.allows, hwritable]
      rfl
    | false =>
      have hcheck := checkWritePermissions_of_isReadOnly hzero
        ⟨by rw [hparent]; rfl, f, hfile, hreadable, hwritable⟩
      refine iff_of_false (fun h => ?_) (by simp)
      have hright := h.right hcheck.1 s.newFile
      rw [hopen, File.allows, hwritable, if_neg Bool.false_ne_true] at hright
      cases hright

theorem probeHarmless_iff_of_zero (hzero : 0 ∈ s.descriptors) (filename : PathName) :
    ProbeHarmless s filename ↔ ¬ IsReadOnly s.tree filename := by
  rw [IsReadOnly]
  cases hparent : parent s.tree filename with
  | none =>
    refine iff_of_true (probeHarmless_of_none ?_ ?_) (by simp)
    · exact openPath_of_parent_none _ _ hparent
    · exact openPath_of_parent_none _ _ hparent
  | some d =>
    cases hnode : s.tree filename with
    | none => exact iff_of_true (probeHarmless_of_missing hzero hparent hnode) (by simp)
    | some node =>
      cases node with
      | file f =>
        rw [probeHarmless_of_file hzero hparent hnode]
        simp
      | directory d' =>
        refine iff_of_true (probeHarmless_of_none ?_ ?_) (by simp)
        · exact openPath_of_directory _ _ hparent hnode
        · exact openPath_of_directory _ _ hparent hnode

end Probe

/-- The probe changes nothing and is right exactly when the path does not name a
file that can be read and not written. -/
theorem probeHarmless_iff_not_isReadOnly (s : Process CString) (hstd : {0, 1, 2} ⊆ s.descriptors)
    (filename : PathName) : ProbeHarmless s filename ↔ ¬ IsReadOnly s.tree filename :=
  probeHarmless_iff_of_zero (hstd (by decide)) filename

/-! ## The two probes of `main` -/

/-- `main` probes the map output, which is the input with `-e`, and the reduce
output; it exits where a probe answers no. -/
def probeOutputs (s : Process CString) (justReduce : Bool)
    (mapOutPath reduceOutPath inputPath : PathName) : Bool × Process CString :=
  let (ok, s) := checkWritePermissions s (if justReduce then inputPath else mapOutPath)
  if ok then checkWritePermissions s reduceOutPath else (false, s)

theorem subset_descriptors_checkWritePermissions (s : Process CString) (filename : PathName) :
    s.descriptors ⊆ (checkWritePermissions s filename).2.descriptors := by
  have hfirst := Process.subset_descriptors_openFile s filename .readWrite false
  rw [checkWritePermissions]
  dsimp only
  split
  · exact hfirst
  · split
    · rename_i hpos
      exact hfirst.trans (Process.subset_descriptors_close _ _ _ _ hpos)
    · exact hfirst.trans (Process.subset_descriptors_openFile _ _ _ _)

/-- Both probes together change nothing where neither file can only be read. -/
theorem probeOutputs_unchanged {s : Process CString} (hzero : 0 ∈ s.descriptors)
    {justReduce : Bool} {mapOutPath reduceOutPath inputPath : PathName}
    (hfirst : ¬ IsReadOnly s.tree (if justReduce then inputPath else mapOutPath))
    (hsecond : ¬ IsReadOnly s.tree reduceOutPath) :
    (probeOutputs s justReduce mapOutPath reduceOutPath inputPath).2.tree = s.tree := by
  rw [probeOutputs]
  generalize (if justReduce then inputPath else mapOutPath) = path at hfirst
  have hmap := ((probeHarmless_iff_of_zero hzero path).mpr hfirst).unchanged
  have hzero' := subset_descriptors_checkWritePermissions s path hzero
  dsimp only
  split
  · rw [← hmap] at hsecond
    exact (((probeHarmless_iff_of_zero hzero' reduceOutPath).mpr hsecond).unchanged).trans hmap
  · exact hmap

/-- A process in its home directory `/`, which holds this node as `out` and
nothing else. -/
def homeProcess (node : Option Node) : Process CString where
  tree
    | [] => some (.directory ⟨true, true, false, true⟩)
    | [name] => if name = .ofLiteral "out" then node else none
    | _ => none
  descriptors := {0, 1, 2}
  maskRead := false
  maskWrite := false

/-- A file that may only be read is removed. -/
theorem not_probeHarmless_readOnlyFile :
    ¬ ∀ (s : Process CString) (filename : PathName), {0, 1, 2} ⊆ s.descriptors →
      ProbeHarmless s filename := by
  intro h
  have hharmless := h (homeProcess (some (.file ⟨[97], true, false, true⟩)))
    [.ofLiteral "out"] (Finset.Subset.refl _)
  have hzero : 0 ∈ (homeProcess (some (.file ⟨[97], true, false, true⟩))).descriptors := by decide
  rw [probeHarmless_of_file hzero (by rfl) (by rfl)] at hharmless
  exact hharmless ⟨rfl, rfl⟩

/-- The file is missing, and is missing again afterwards. -/
theorem probeHarmless_missingFile :
    ProbeHarmless (homeProcess none) [.ofLiteral "out"] ↔
      ¬ IsReadOnly (homeProcess none).tree [.ofLiteral "out"] :=
  probeHarmless_iff_not_isReadOnly _ (Finset.Subset.refl _) _

end Meguro
