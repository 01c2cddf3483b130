import Spn.Trees.Steps

/-! # Calls

`git/cache.c` and `toolchain/provision.c`, as programs of a caller. What becomes of the
texts of the errors is left out, and so is the table in which a process looks up an entry:
an entry is there from the first lookup on.
-/
namespace Spn.Trees

open Spn.Lib

variable {α : Type}

abbrev Call (α : Type) := Prog Op Op.Ans α

/-- One operation. -/
abbrev does (o : Op) : Call o.Ans := Prog.perform o

section

variable (H : Hashes) (c : ℕ)

/-! ## Commands -/

/-- `sp_ps_run`: whether the command exited with 0. -/
def psRun (cmd : Command) (p : CachePath) (input : Option CachePath) : Call Bool := do
  does (.spawn cmd p input)
  does .wait

/-! ## `git/cache.c` -/

/-- The first call for an entry: it is ready as soon as it is begun. -/
def cloneDb (url : Str) : Call Unit := do
  let key := H.gitDbKey url
  does (.store (.db key) ⟨true, .ok⟩)
  if ← does (.isDir (.db key)) then pure ()
  else if ← psRun (.cloneBare url) (.db key) none then pure ()
  else does (.store (.db key) ⟨true, .error⟩)

/-- `spn_git_cache_ensure_db`; nothing changes an entry that is ready and not locked, so
`entry->err` is what it was at the unlock. -/
def gitCacheEnsureDb (url : Str) : Call Err := do
  let key := H.gitDbKey url
  does (.lock (.db key))
  let entry ← does (.load (.db key))
  if entry.ready then pure () else cloneDb H url
  let entry ← does (.unlock (.db key))
  pure entry.err

/-- The commands of `spn_git_db_ensure_rev`. -/
def findRev (key : Key) (rev : Str) : Call Bool := do
  if ← psRun (.catFile rev) (.db key) none then pure true
  else if ← psRun (.fetchRev rev) (.db key) none then psRun (.catFile rev) (.db key) none
  else if ← psRun .fetchHeads (.db key) none then psRun (.catFile rev) (.db key) none
  else pure false

/-- `spn_git_db_ensure_rev`. -/
def gitDbEnsureRev (key : Key) (rev : Str) : Call Err := do
  does (.lock (.db key))
  let found ← findRev key rev
  let _ ← does (.unlock (.db key))
  pure (if found then .ok else .error)

/-- The attempts of `spn_path_stage_dir`. -/
def stageAttempts : ℕ → ℕ → Call (Option CachePath)
  | 0, _ => pure none
  | left + 1, attempt => do
    if ← does (.mkdir (.staged c attempt)) then pure (some (.staged c attempt))
    else if ← does (.fsExists (.staged c attempt)) then stageAttempts left (attempt + 1)
    else pure none

/-- `spn_path_stage_dir`. -/
def pathStageDir (p : CachePath) : Call (Option CachePath) := do
  if ← does (.createParent p) then stageAttempts c 16 0 else pure none

/-- `spn_git_checkout`. -/
def gitCheckout (work : CachePath) (rev : Str) : Call Bool := do
  if rev = [] then pure false
  else if ← does (.isRepoRoot work) then psRun (.checkout rev) work none
  else pure false

/-- The patches, applied in order. -/
def applyPatches (staged : CachePath) : List Str → Call Bool
  | [] => pure true
  | patch :: rest => do
    if ← psRun (.apply patch) staged none then applyPatches staged rest else pure false

/-- `spn_git_cache_fill_checkout`. -/
def gitCacheFillCheckout (id : CheckoutId) (staged : CachePath) : Call Bool := do
  if ← psRun (.cloneShared (H.gitDbKey id.url)) staged none then
    if ← gitCheckout staged id.rev then applyPatches staged id.patches else pure false
  else pure false

/-- A staged directory is put in place, or there is one already. -/
def place (staged dest : CachePath) : Call Err := do
  if ← does (.rename staged dest) then pure .ok
  else do
    does (.removeDir staged)
    if ← does (.isDir dest) then pure .ok else pure .error

/-- The checkout is staged, filled and put in place. -/
def fillAndPlace (id : CheckoutId) : Call Err := do
  let dest := CachePath.checkout (H.gitCheckoutKey id)
  match ← pathStageDir c dest with
  | none => pure .error
  | some staged =>
    if ← gitCacheFillCheckout H id staged then place staged dest
    else do
      does (.removeDir staged)
      pure .error

/-- The directory in the checkout that is asked for. -/
def checkoutDir (id : CheckoutId) : Call Err := do
  if id.dir = [] then pure .ok
  else if ← does (.hasDir (.checkout (H.gitCheckoutKey id)) id.dir) then pure .ok
  else pure .error

/-- `spn_git_cache_materialize_checkout`. -/
def gitCacheMaterializeCheckout (id : CheckoutId) : Call Err := do
  if (← gitCacheEnsureDb H id.url) = .ok then
    if (← gitDbEnsureRev (H.gitDbKey id.url) id.rev) = .ok then
      if ← does (.isDir (.checkout (H.gitCheckoutKey id))) then checkoutDir H id
      else if (← fillAndPlace H c id) = .ok then checkoutDir H id
      else pure .error
    else pure .error
  else pure .error

/-- The first call for an entry. -/
def materialize (id : CheckoutId) : Call Unit := do
  let m := Mutex.checkout (H.gitCheckoutKey id)
  does (.store m ⟨true, .ok⟩)
  let err ← gitCacheMaterializeCheckout H c id
  does (.store m ⟨true, err⟩)

/-- `spn_git_cache_ensure_checkout`. -/
def gitCacheEnsureCheckout (id : CheckoutId) : Call Err := do
  let m := Mutex.checkout (H.gitCheckoutKey id)
  does (.lock m)
  let entry ← does (.load m)
  if entry.ready then pure () else materialize H c id
  let entry ← does (.unlock m)
  pure entry.err

/-! ## `toolchain/provision.c` -/

/-- `spn_artifact_resolve_url`. -/
def artifactResolveUrl (artifact : Artifact) (mirror : Str) : Str :=
  let name := (artifact.url.reverse.takeWhile (· ≠ slash)).reverse
  if mirror = [] ∨ name = [] then artifact.url
  else (mirror.reverse.dropWhile (· = slash)).reverse ++ slash :: name

/-- `fetch`: the mirror is tried first. -/
def fetch (mirror : Str) (artifact : Artifact) : Call Bool := do
  let url := artifactResolveUrl artifact mirror
  if url = artifact.url then psRun (.curl artifact.url) (.download c) none
  else if ← psRun (.curl url) (.download c) none then pure true
  else psRun (.curl artifact.url) (.download c) none

/-- The archive is extracted into the staged directory, and removed. -/
def extract (artifact : Artifact) (staged : CachePath) : Call Err := do
  let extracted ← psRun .tar staged (some (.download c))
  does (.removeFile (.download c))
  let filled ← does (.iterate staged)
  if extracted && filled then place staged (.toolchain artifact.sha256)
  else do
    does (.removeDir staged)
    pure .error

/-- The archive is removed again. -/
def dropDownload : Call Err := do
  does (.removeFile (.download c))
  pure .error

/-- `fill`. -/
def fill (mirror : Str) (artifact : Artifact) : Call Err := do
  if ← fetch c mirror artifact then
    if (← does (.digest (.download c))) = some artifact.sha256 then
      match ← pathStageDir c (.toolchain artifact.sha256) with
      | none => dropDownload c
      | some staged => extract c artifact staged
    else dropDownload c
  else dropDownload c

/-- `spn_toolchain_provision`: without the lock it is filled in any case. -/
def toolchainProvision (mirror : Str) (artifact : Artifact) : Call Err := do
  let locked ← does (.acquire artifact.sha256)
  let there ← if locked then does (.isDir (.toolchain artifact.sha256)) else pure false
  let result ← if there then pure .ok else fill c mirror artifact
  does (.release artifact.sha256)
  pure result

end

/-! ## Callers -/

/-- What a call is asked for. -/
inductive Want
  | db (url : Str)
  | checkout (id : CheckoutId)
  | toolchain (artifact : Artifact)
  deriving DecidableEq

namespace Want

/-- The bare clone it uses. -/
def url : Want → Option Str
  | .db url => some url
  | .checkout id => some id.url
  | .toolchain _ => none

def id : Want → Option CheckoutId
  | .checkout id => some id
  | _ => none

end Want

/-- The calls of all processes. -/
structure Callers where
  owner : ℕ → ℕ
  want : ℕ → Want
  mirror : ℕ → Str

/-- The program of a call. -/
def Callers.call (K : Callers) (H : Hashes) (c : ℕ) : Call Err :=
  match K.want c with
  | .db url => gitCacheEnsureDb H url
  | .checkout id => gitCacheEnsureCheckout H c id
  | .toolchain artifact => toolchainProvision c (K.mirror c) artifact

/-- Nothing has been cached, and no call has begun. -/
def Callers.start {Content : Type} (K : Callers) (H : Hashes) :
    Config (Cache Content) Op Op.Ans Err where
  shared := .start
  progs c := some (K.call H c)

end Spn.Trees
