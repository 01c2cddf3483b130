import Spn.Lib.Terminated
import Spn.Link.Staged

/-! # Staging

`dag_stage` in `graph/dag.c`: the executables of a plan and their libraries are copied into
the output directory, and the libraries that nothing there needs any more are removed. The
manifest says for each executable what was staged for it when it was last built. A run is the
list of its file operations, and a run that stops has done some of the first of them. What the
manifest's read, the removals and the manifest's write return is looked at nowhere: where one
fails the run goes on.
-/
namespace Spn.Link

open Spn.Lib

def tab : UInt8 := 0x09
def newline : UInt8 := 0x0a

/-! ## The manifest -/

/-- `dag_staged_t`. -/
structure Staged where
  exe : Str
  entry : Str
  deriving DecidableEq, Repr

def Staged.line (staged : Staged) : Str := staged.exe ++ tab :: staged.entry

/-- What the manifest holds for these pairs. -/
def writeStaged (staged : List Staged) : Str := terminated newline (staged.map Staged.line)

/-- A line without a tab is passed over. -/
def readLine (line : Str) : Option Staged :=
  (findC8 line tab).map fun i => ⟨line.take i, line.drop (i + 1)⟩

/-- The pairs of a manifest. -/
def readStaged (content : Str) : List Staged := (content.splitOn newline).filterMap readLine

/-! ## File operations -/

/-- A file, and how many names it has. -/
structure File where
  bytes : Str
  nlink : ℕ
  deriving DecidableEq, Repr

/-- The output directory. No artifact has the place of the manifest, `.spn/staged`: the names
of targets have no slash. -/
structure OutputDir where
  disk : Path → Option File
  manifest : Option Str

/-- The operations of `dag_stage` on files; to keep a file is to find that it is as built. A
removal or a write of the manifest succeeds or fails, and the run goes on. -/
inductive FileOp
  | remove (path : Path) (ok : Bool)
  | createParent
  | writeManifest (content : Str) (ok : Bool)
  | keep (path : Path)
  | copy (path : Path) (bytes : Str)
  deriving DecidableEq, Repr

def FileOp.apply (dir : OutputDir) : FileOp → OutputDir
  | .remove path true => { dir with disk := Function.update dir.disk path none }
  | .writeManifest content true => { dir with manifest := some content }
  | .remove _ false | .writeManifest _ false | .createParent | .keep _ => dir
  | .copy path bytes => { dir with disk := Function.update dir.disk path (some ⟨bytes, 1⟩) }

/-- The place that the operation has staged. -/
def FileOp.staged : FileOp → Option Path
  | .keep path | .copy path _ => some path
  | .remove _ _ | .createParent | .writeManifest _ _ => none

def OutputDir.apply (dir : OutputDir) (ops : List FileOp) : OutputDir := ops.foldl FileOp.apply dir

/-! ## A run -/

/-- What a run of `dag_stage` is given: the closures of the plan, the bytes of the artifact of
each target, where the graph has one, and for which files the file cache has an answer. -/
structure StageRun (T : Type) where
  closures : List (StageClosure T)
  built : T → Option Str
  answers : Path → Bool

/-- How the calls of a run end that nobody checks. -/
structure Outcomes where
  /-- The manifest is read, where there is one. -/
  read : Bool
  /-- After this removal the file is gone. -/
  removed : ℕ → Bool
  /-- The new manifest takes the old one's place. -/
  written : Bool

/-- None of them fails. -/
def Outcomes.Fine (o : Outcomes) : Prop :=
  o.read = true ∧ (∀ i, o.removed i = true) ∧ o.written = true

namespace StageRun

variable {T : Type} (r : StageRun T)

def entries : List (StageEntry T) := r.closures.flatMap StageClosure.entries

def exes : List Path := r.closures.map fun closure => closure.exe.path

/-- The pairs of a closure. -/
def pairs (closure : StageClosure T) : List Staged :=
  closure.entries.map fun e => ⟨closure.exe.path.sub, e.path.sub⟩

/-- The pairs of the new manifest: those of the plan, and what the old one has about the
executables that are not of the plan. -/
def next (root : PathRoot) (previous : List Staged) : List Staged :=
  r.closures.flatMap pairs ++ previous.filter fun staged => ⟨root, staged.exe⟩ ∉ r.exes

/-- The entries that nothing names any more are removed. -/
def removals (root : PathRoot) (removed : ℕ → Bool) (previous : List Staged) : List FileOp :=
  (previous.filter fun staged => staged.entry ∉ (r.next root previous).map Staged.entry).mapIdx
    fun i staged => .remove ⟨root, staged.entry⟩ (removed i)

/-- The loop over the libraries of a closure, with the paths that are copied. -/
def libJobs : List Path → List (StageEntry T) → List (Path × Str) × List Path
  | copied, [] => ([], copied)
  | copied, lib :: libs =>
    match r.built lib.target with
    | none => libJobs copied libs
    | some bytes =>
      if lib.path ∈ copied then libJobs copied libs
      else
        ((lib.path, bytes) :: (libJobs (lib.path :: copied) libs).1,
          (libJobs (lib.path :: copied) libs).2)

/-- The loop over the closures: what is staged where. -/
def jobs : List Path → List (StageClosure T) → List (Path × Str)
  | _, [] => []
  | copied, closure :: closures =>
    match r.built closure.exe.target with
    | none => jobs copied closures
    | some bytes =>
      (closure.exe.path, bytes) ::
        ((r.libJobs copied closure.libs).1 ++ jobs (r.libJobs copied closure.libs).2 closures)

variable {D : Type} [DecidableEq D] (digest : Str → D)

/-- `dag_stage_copy`: a file of one name with the artifact's digest is left as it is. -/
def stageCopy (dir : OutputDir) (job : Path × Str) : FileOp :=
  match dir.disk job.1 with
  | none => .copy job.1 job.2
  | some file =>
    if r.answers job.1 ∧ file.nlink = 1 ∧ digest file.bytes = digest job.2 then .keep job.1
    else .copy job.1 job.2

def copyOps : OutputDir → List (Path × Str) → List FileOp
  | _, [] => []
  | dir, job :: jobs =>
    r.stageCopy digest dir job :: copyOps ((r.stageCopy digest dir job).apply dir) jobs

/-- The pairs of the manifest that is there. -/
def previous (dir : OutputDir) : List Staged := readStaged (dir.manifest.getD [])

/-- The pairs of the manifest that is read; one that cannot be read is empty. -/
def read (o : Outcomes) (dir : OutputDir) : List Staged := if o.read then previous dir else []

/-- What `dag_stage` does before it writes the manifest. -/
def before (root : PathRoot) (o : Outcomes) (dir : OutputDir) : List FileOp :=
  r.removals root o.removed (read o dir) ++ [.createParent]

/-- The write of the new manifest. -/
def manifest (root : PathRoot) (o : Outcomes) (dir : OutputDir) : FileOp :=
  .writeManifest (writeStaged (r.next root (read o dir))) o.written

/-- `dag_stage`. -/
def dagStage (root : PathRoot) (o : Outcomes) (dir : OutputDir) : List FileOp :=
  r.before root o dir ++ r.manifest root o dir ::
    r.copyOps digest ((dir.apply (r.before root o dir)).apply [r.manifest root o dir])
      (r.jobs [] r.closures)

end StageRun
end Spn.Link
