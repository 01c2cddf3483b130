import Spn.Lib.Interleave
import Spn.Paths

/-! # A cache directory

What is in a cache directory, the commands that fill it, and the operations of the callers.
A command fills the directory it is given step by step, and it goes on when its caller is
killed; what a single write of it leaves, and what it has made when it exits with 0, is what
the tools say.
-/
namespace Spn.Trees

open Spn.Lib

/-! ## Names -/

/-- The directory of a clone or a checkout: a name and a hash, as they are formatted. -/
abbrev Key := Str × UInt64

/-- `spn_git_checkout_id_t`; a patch is what its file holds. -/
structure CheckoutId where
  url : Str
  rev : Str
  dir : Str
  patches : List Str
  deriving DecidableEq

/-- `spn_artifact_t`. -/
structure Artifact where
  url : Str
  sha256 : Str
  deriving DecidableEq

def colon : UInt8 := 0x3a

/-- `spn_git_url_name`. -/
def gitUrlName (url : Str) : Str :=
  let url := if str "/" <:+ url then url.take (url.length - 1) else url
  let url := if str ".git" <:+ url then url.take (url.length - 4) else url
  (url.reverse.takeWhile fun c => c ≠ slash ∧ c ≠ colon).reverse

/-- The hash functions of the keys. -/
structure Hashes where
  str : Str → UInt64
  combine : List UInt64 → UInt64

/-- `spn_git_patch_set_hash`. -/
def Hashes.patchSet (H : Hashes) (patches : List Str) : UInt64 :=
  patches.foldl (fun hash content => H.combine [hash, H.str content]) 0

/-- `spn_git_db_key`. -/
def Hashes.gitDbKey (H : Hashes) (url : Str) : Key := (gitUrlName url, H.str url)

/-- `spn_git_checkout_key`. -/
def Hashes.gitCheckoutKey (H : Hashes) (id : CheckoutId) : Key :=
  let hash := H.patchSet id.patches
  let parts := [H.str id.url, H.str id.rev, H.str id.dir]
  (gitUrlName id.url, H.combine (if hash = 0 then parts else parts ++ [hash]))

/-- The places of a cache. Staged and downloaded are named after their caller: the names
of two calls, and of two attempts of one, differ. -/
inductive CachePath
  | db (key : Key)
  | checkout (key : Key)
  | toolchain (sha256 : Str)
  | staged (caller attempt : ℕ)
  | download (caller : ℕ)
  deriving DecidableEq

/-- The caller a place is named after. -/
def CachePath.caller : CachePath → Option ℕ
  | .staged c _ => some c
  | .download c => some c
  | _ => none

/-- Where finished checkouts and toolchains are. -/
def CachePath.final : CachePath → Bool
  | .checkout _ => true
  | .toolchain _ => true
  | _ => false

/-! ## Commands -/

/-- The commands the callers run. -/
inductive Command
  | cloneBare (url : Str)
  | cloneShared (db : Key)
  | checkout (rev : Str)
  | apply (patch : Str)
  | catFile (rev : Str)
  | fetchRev (rev : Str)
  | fetchHeads
  | curl (url : Str)
  | tar
  deriving DecidableEq

namespace Command

/-- A clone begins in a directory that is empty or not there. -/
def clones : Command → Bool
  | .cloneBare _ => true
  | .cloneShared _ => true
  | _ => false

def bare : Command → Bool
  | .cloneBare _ => true
  | _ => false

/-- The commands that run in a bare clone. -/
def inDb : Command → Bool
  | .catFile _ => true
  | .fetchRev _ => true
  | .fetchHeads => true
  | _ => false

end Command

/-- What the commands do in a directory: a single write, and what there is when a command
exits with 0 that began there. Each may have a file to read. -/
structure Tools (Content : Type) where
  empty : Content
  write : Command → Option Content → Option Content → Content → Prop
  done : Command → Option Content → Option Content → Content → Prop
  sha256 : Content → Str
  hasDir : Content → Str → Bool
  /-- A bare clone is not an empty directory. -/
  cloned : ∀ {url input before x}, done (.cloneBare url) input before x → x ≠ empty
  /-- Nothing that runs in a bare clone makes it one. -/
  fetched : ∀ {cmd input x y}, cmd.inDb → x ≠ empty → write cmd input (some x) y → y ≠ empty

section

variable {Content : Type}

namespace Tools

variable (T : Tools Content)

/-- A bare clone: what `git clone --bare` had made when it exited with 0, and what the
fetches have added since. -/
def Cloned (url : Str) (x : Content) : Prop :=
  ∃ before y, T.done (.cloneBare url) none before y ∧
    Relation.ReflTransGen (fun y z => ∃ cmd, cmd.inDb ∧ T.write cmd none (some y) z) y x

/-- Each of the commands has been done where the one before it was. -/
def Filled : List Command → Content → Content → Prop
  | [], before, x => x = before
  | cmd :: rest, before, x => ∃ y, T.done cmd none (some before) y ∧ Filled rest y x

/-- The commands that fill a checkout. -/
def fillCommands (H : Hashes) (id : CheckoutId) : List Command :=
  .cloneShared (H.gitDbKey id.url) :: .checkout id.rev :: id.patches.map .apply

/-- A checkout: the revision, checked out in a clone and patched. -/
def CheckedOut (H : Hashes) (id : CheckoutId) (x : Content) : Prop :=
  T.Filled (fillCommands H id) T.empty x

/-- A toolchain: an archive with this digest, extracted. -/
def Extracted (sha256 : Str) (x : Content) : Prop :=
  ∃ archive, T.sha256 archive = sha256 ∧ T.done .tar (some archive) (some T.empty) x

end Tools

/-! ## The state -/

/-- A command that runs, or has exited, with 0 or not. -/
structure Child (Content : Type) where
  cmd : Command
  path : CachePath
  input : Option Content
  before : Option Content
  exit : Option Bool

/-- The mutexes of a process, of `spn_git_db_t` and `spn_git_checkout_t`. -/
inductive Mutex
  | db (key : Key)
  | checkout (key : Key)
  deriving DecidableEq

/-- `spn_err_t`. -/
inductive Err
  | ok | error
  deriving DecidableEq

/-- What a mutex guards: `ready` and `err`. -/
structure Entry where
  ready : Bool
  err : Err
  deriving DecidableEq

/-- The cache directory, the commands of the callers, the memory of the processes and the
locks on toolchains. `remains` is history: a bare clone was cut short here, and what it had
made was left. -/
structure Cache (Content : Type) where
  files : CachePath → Option Content
  children : ℕ → Option (Child Content)
  holder : ℕ → Mutex → Option ℕ
  entry : ℕ → Mutex → Entry
  lock : Str → Option ℕ
  remains : Key → Bool

namespace Cache

/-- An empty cache directory, and processes that have done nothing yet. -/
def start : Cache Content where
  files _ := none
  children _ := none
  holder _ _ := none
  entry _ _ := ⟨false, .ok⟩
  lock _ := none
  remains _ := false

variable (s : Cache Content)

def put (p : CachePath) (x : Option Content) : Cache Content :=
  { s with files := Function.update s.files p x }

def setChild (c : ℕ) (child : Option (Child Content)) : Cache Content :=
  { s with children := Function.update s.children c child }

def setHolder (process : ℕ) (m : Mutex) (h : Option ℕ) : Cache Content :=
  { s with holder := Function.update s.holder process (Function.update (s.holder process) m h) }

def setEntry (process : ℕ) (m : Mutex) (e : Entry) : Cache Content :=
  { s with entry := Function.update s.entry process (Function.update (s.entry process) m e) }

def setLock (sha256 : Str) (h : Option ℕ) : Cache Content :=
  { s with lock := Function.update s.lock sha256 h }

/-- What a bare clone that has ended says about its directory. -/
def noteEnd (child : Child Content) (remains : Bool) : Cache Content :=
  match child.cmd.bare, child.path with
  | true, .db key => { s with remains := Function.update s.remains key remains }
  | _, _ => s

/-- A bare clone into the directory is running. -/
def InProgress (key : Key) : Prop :=
  ∃ c child, s.children c = some child ∧ child.exit = none ∧ child.cmd.bare ∧
    child.path = .db key

end Cache

/-! ## Operations -/

/-- What a caller does in one step. -/
inductive Op
  | isDir (p : CachePath)
  | fsExists (p : CachePath)
  | createParent (p : CachePath)
  | mkdir (p : CachePath)
  | rename (p q : CachePath)
  | removeDir (p : CachePath)
  | removeFile (p : CachePath)
  | digest (p : CachePath)
  | iterate (p : CachePath)
  | hasDir (p : CachePath) (dir : Str)
  | isRepoRoot (p : CachePath)
  | spawn (cmd : Command) (p : CachePath) (input : Option CachePath)
  | wait
  | lock (m : Mutex)
  | unlock (m : Mutex)
  | load (m : Mutex)
  | store (m : Mutex) (e : Entry)
  | acquire (sha256 : Str)
  | release (sha256 : Str)

/-- What an operation answers; true is success, and that a command exited with 0. -/
@[reducible] def Op.Ans : Op → Type
  | .isDir _ | .fsExists _ | .createParent _ | .mkdir _ | .rename _ _ => Bool
  | .removeDir _ | .removeFile _ => Unit
  | .digest _ => Option Str
  | .iterate _ | .hasDir _ _ | .isRepoRoot _ => Bool
  | .spawn _ _ _ => Unit
  | .wait => Bool
  | .lock _ => Unit
  | .unlock _ | .load _ => Entry
  | .store _ _ => Unit
  | .acquire _ => Bool
  | .release _ => Unit

/-- The operations of caller `c`. Each that can fail may fail. -/
def act (T : Tools Content) (owner : ℕ → ℕ) (c : ℕ) :
    (o : Op) → Cache Content → o.Ans → Cache Content → Prop
  | .isDir p, s, a, t => a = (s.files p).isSome ∧ t = s
  | .fsExists p, s, a, t => a = (s.files p).isSome ∧ t = s
  | .createParent _, s, _, t => t = s
  | .mkdir p, s, a, t =>
    (a = true ∧ s.files p = none ∧ t = s.put p (some T.empty)) ∨ (a = false ∧ t = s)
  | .rename p q, s, a, t =>
    (a = true ∧ ∃ x, s.files p = some x ∧ (s.files q = none ∨ s.files q = some T.empty) ∧
      t = (s.put p none).put q (some x)) ∨ (a = false ∧ t = s)
  -- what is left when not all could be removed
  | .removeDir p, s, _, t => ∃ rest, t = s.put p rest
  | .removeFile p, s, _, t => ∃ rest, (rest = none ∨ rest = s.files p) ∧ t = s.put p rest
  | .digest p, s, a, t => (∀ d, a = some d → ∃ x, s.files p = some x ∧ T.sha256 x = d) ∧ t = s
  | .iterate p, s, a, t => (a = true → ∃ x, s.files p = some x ∧ x ≠ T.empty) ∧ t = s
  | .hasDir p dir, s, a, t => a = (s.files p).any (T.hasDir · dir) ∧ t = s
  | .isRepoRoot _, s, _, t => t = s
  -- a command may exit at once, as a clone does where there is something
  | .spawn cmd p input, s, _, t =>
    ∃ exit, (exit = none ∧ (cmd.clones → s.files p = none ∨ s.files p = some T.empty) ∨
        exit = some false) ∧
      t = s.setChild c (some ⟨cmd, p, input.bind s.files, s.files p, exit⟩)
  | .wait, s, a, t =>
    (∃ child, s.children c = some child ∧ child.exit = some a) ∧ t = s.setChild c none
  | .lock m, s, _, t => s.holder (owner c) m = none ∧ t = s.setHolder (owner c) m (some c)
  | .unlock m, s, a, t => a = s.entry (owner c) m ∧ t = s.setHolder (owner c) m none
  | .load m, s, a, t => a = s.entry (owner c) m ∧ t = s
  | .store m e, s, _, t => t = s.setEntry (owner c) m e
  | .acquire sha256, s, a, t =>
    (a = true ∧ s.lock sha256 = none ∧ t = s.setLock sha256 (some c)) ∨ (a = false ∧ t = s)
  | .release sha256, s, _, t =>
    t = if s.lock sha256 = some c then s.setLock sha256 none else s

/-- The commands at work: a write, an exit with 0, and an exit with another code or the
end of a command that is killed. A clone that fails may remove what it made. -/
inductive Works (T : Tools Content) (s : Cache Content) : Cache Content → Prop
  | write (c : ℕ) (child : Child Content) (y : Content) :
    s.children c = some child → child.exit = none →
    (child.cmd.inDb → (s.files child.path).isSome) →
    T.write child.cmd child.input (s.files child.path) y →
    Works T s (s.put child.path (some y))
  | exit (c : ℕ) (child : Child Content) (x : Content) :
    s.children c = some child → child.exit = none → s.files child.path = some x →
    T.done child.cmd child.input child.before x →
    Works T s ((s.noteEnd child false).setChild c (some { child with exit := some true }))
  | fail (c : ℕ) (child : Child Content) (left : Option Content) :
    s.children c = some child → child.exit = none →
    (left = s.files child.path ∨ child.cmd.clones ∧ left = none) →
    Works T s (((s.put child.path left).noteEnd child left.isSome).setChild c
      (some { child with exit := some false }))

/-- The callers, the commands and the ends of processes: when a process is killed, its
locks on toolchains go with it. -/
def system (T : Tools Content) (owner : ℕ → ℕ) : System (Cache Content) Op Op.Ans where
  act := act T owner
  env := Works T
  kill process s t := t = { s with
    lock := fun sha256 => (s.lock sha256).filter fun c => owner c ≠ process }
  owner := owner

end

end Spn.Trees
