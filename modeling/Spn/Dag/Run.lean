import Spn.Lib.Replay
import Spn.Lib.Countdown
import Spn.Dag.Keys

/-! # The run loop

`spn_dag_run_executor` in `dag/run.c`, together with the jobs its thread pool
runs. An event is one turn of the main loop or one step of a worker, so a list
of events is one interleaving. What a cache holds, what an action reports and
which job the executor hands back are part of the events. A commit is three
events, since workers go on between the update of the discovery table, the
writes of `settle` and the end of the commit.

Each array of per-action state is a function from the action's index. The
stack `ready` is kept with its top first.
-/
namespace Spn.Dag

open Spn.Lib Function

/-! ## Observation rows -/

/-- `sp_str_compare_alphabetical`. -/
def strCompare : Str → Str → Ordering
  | [], [] => .eq
  | [], _ :: _ => .lt
  | _ :: _, [] => .gt
  | a :: s, b :: t => (compare a b).then (strCompare s t)

/-- `obs_order`. -/
def obsOrder (a b : Obs) : Ordering :=
  (compare a.path.root.toNat b.path.root.toNat).then <|
    (strCompare a.path.sub b.path.sub).then <|
      (compare a.kind.toNat b.kind.toNat).then (strCompare a.filter b.filter)

/-- Drop each row equal to the one before it. -/
def dropRepeats : List Obs → List Obs
  | a :: b :: rest => if a = b then dropRepeats (b :: rest) else a :: dropRepeats (b :: rest)
  | rows => rows

/-- `spn_dag_obs_canonicalize`. -/
def canonicalize (rows : List Obs) : List Obs :=
  dropRepeats (rows.insertionSort fun a b => obsOrder a b ≠ .gt)

/-- `spn_dag_pathset_t`. -/
structure Pathset where
  pinned : Digest
  obs : List Obs
  deriving DecidableEq

/-! ## Targets -/

structure Target where
  producer : ℕ
  kind : ArtifactKind
  deriving DecidableEq

namespace Graph

/-- `targets.by_path`. -/
def byPath (g : Graph) (p : Path) : Option Target :=
  g.artifacts.findSome? fun x =>
    match x.producer with
    | some k => if x.path.empty = false ∧ x.path = p then some ⟨k, x.kind⟩ else none
    | none => none

/-- `targets.below`: the producers of the outputs under a directory. -/
def below (g : Graph) (dir : Path) : List ℕ :=
  g.artifacts.filterMap fun x =>
    match x.producer with
    | some k => if x.path.empty = false ∧ dir ∈ x.path.ancestors then some k else none
    | none => none

/-- The producer of the tree output at a directory. -/
def treeProducer (g : Graph) (dir : Path) : Option ℕ :=
  match g.byPath dir with
  | some ⟨k, .tree⟩ => some k
  | _ => none

/-- The producers `defer_observations` visits for a row, in its order. -/
def obsProducers (g : Graph) (o : Obs) : List ℕ :=
  if g.roots.pins o.path.root then []
  else
    ((g.byPath o.path).map (·.producer)).toList
      ++ o.path.ancestors.filterMap g.treeProducer
      ++ if o.kind = .enumeration then g.below o.path else []

/-- The actions that produce an input of an action. -/
def declaredProducers (g : Graph) (k : ℕ) : List ℕ := (g.consumes k).filterMap g.producer

end Graph

/-! ## State -/

/-- Where the worker that runs an action's job stands. -/
inductive Phase
  | queued | looking | looked | settling | executing | finished
  deriving DecidableEq, Repr

/-- `spn_dag_flight_t` with its attempt. `found` says that `lookup` got as far
as asking the action cache; `under` keeps the rows of the pathset it asked
with, and after a commit the rows the commit stored. -/
structure Flight where
  epoch : ℕ
  err : Option Err
  hit : Bool
  key : Digest
  digests : List Digest
  rows : List Obs
  found : Bool
  under : List Obs

/-- The assertions of the main loop. -/
inductive Assertion
  | turns | firstLookup
  deriving DecidableEq, Repr

/-- Where the main thread stands: at the head of its loop, in `commit` before
or inside `settle`, after the loop, or stopped by an assertion. -/
inductive Main
  | loop
  | commit (k : ℕ)
  | settle (k : ℕ)
  | exited
  | aborted (a : Assertion)
  deriving DecidableEq, Repr

/-- The action the main thread is committing. -/
def Main.action : Main → Option ℕ
  | .commit k | .settle k => some k
  | _ => none

/-- One for the action the main thread is committing. -/
def Main.token (m : Main) (k : ℕ) : ℕ := if m.action = some k then 1 else 0

theorem Main.token_of_none {m : Main} (h : m.action = none) (k : ℕ) : m.token k = 0 := by
  simp [token, h]

theorem Main.token_of_some {m : Main} {j : ℕ} (h : m.action = some j) (k : ℕ) :
    m.token k = if k = j then 1 else 0 := by
  simp [token, h, eq_comm]

/-- `spn_dag_run_t`, with the parts of the graph a run changes. The last two
fields are logs for the statements about runs: the actions that finished, in
order, with the rows they were restored or committed under, and the rows each
execution reported. -/
structure Run where
  digest : ℕ → Digest
  wrote : ℕ → Bool
  pending : ℕ → ℕ
  deferred : ℕ → ℕ
  done : ℕ → Bool
  parked : ℕ → Bool
  doneEpoch : ℕ → ℕ
  waiters : ℕ → List ℕ
  flight : ℕ → Flight
  phase : ℕ → Phase
  ready : List ℕ
  jobs : List ℕ
  completed : ℕ
  inFlight : ℕ
  err : Option Err
  turns : ℕ
  discovery : Digest → Option Pathset
  main : Main
  finished : List (ℕ × List Obs)
  reported : List (ℕ × List Obs)

/-- What a run is given: the hash, the content of source files, the discovery
table it finds and how the probe of the clock went. -/
structure Env where
  hash : List UInt8 → Digest
  files : Path → Option (List UInt8)
  discovery : Digest → Option Pathset
  fence : Option Err

/-- What happens next. `W` is what one write of `settle` does to the file
system. -/
inductive Event (W : Type)
  /-- A worker picks up the job of an action and loads the epoch. -/
  | begin (k : ℕ)
  /-- `lookup` computes the weak key and reads the discovery table. -/
  | lookup (k : ℕ)
  /-- `lookup` ends without an entry to restore. -/
  | miss (k : ℕ)
  /-- `restore_entry` stores the digests of an entry and calls `settle`. -/
  | restore (k : ℕ) (outputs : List Digest)
  /-- `settle` changes the file system. -/
  | write (k : ℕ) (w : W)
  /-- `settle` returns to `restore_entry`. -/
  | restored (k : ℕ) (ok : Bool)
  /-- `execute` returns. -/
  | execute (k : ℕ) (err : Option Err) (rows : List Obs) (digests : List Digest)
  /-- A turn of the main loop: whether it sees the cancel flag, and the job
  the executor hands back. -/
  | turn (cancel : Bool) (job : Option ℕ)
  /-- `commit` has resolved its rows and calls `settle`. -/
  | settle
  /-- `commit` returns. -/
  | commit (err : Option Err)

variable {W : Type}

/-- What an event costs against the bound on turns. -/
def Event.turns : Event W → ℕ
  | .turn _ _ => 1
  | _ => 0

namespace Run

/-! ## Deferral -/

/-- `defer_producer`; the flag is the caller's `requeue`. -/
def deferProducer (k epoch : ℕ) (s : Run × Bool) (p : ℕ) : Run × Bool :=
  if p = k then s
  else if s.1.done p then (s.1, s.2 || (decide (epoch < s.1.doneEpoch p) && s.1.wrote p))
  else
    ({ s.1 with
        waiters := update s.1.waiters p (s.1.waiters p ++ [k])
        deferred := update s.1.deferred k (s.1.deferred k + 1) },
      s.2)

/-- `defer_observations`; the action is deferred when its counter is positive
afterwards. -/
def deferObservations (g : Graph) (k : ℕ) (rows : List Obs) (epoch : ℕ) (r : Run) : Run × Bool :=
  (rows.flatMap g.obsProducers).foldl (deferProducer k epoch) (r, false)

/-! ## Finishing and committing -/

/-- `finish_action`. -/
def finishAction (g : Graph) (r : Run) (k : ℕ) : Run :=
  let released := countDown r.pending r.ready ((g.produces k).flatMap g.consumers)
  let woken := countDown r.deferred released.2 (r.waiters k)
  { r with
    done := update r.done k true
    doneEpoch := update r.doneEpoch k (r.completed + 1)
    completed := r.completed + 1
    pending := released.1
    deferred := woken.1
    ready := woken.2
    finished := r.finished ++ [(k, (r.flight k).under)] }

/-- Store the digests of an attempt or an entry in the artifacts. -/
def storeDigests (digest : ℕ → Digest) (outputs : List (ℕ × Digest)) : ℕ → Digest :=
  outputs.foldl (fun d x => update d x.1 x.2) digest

/-- `run_commit_flight` up to the point where `commit` has stored the digests
and, for a discovered action, the pathset (`spn_dag_obs_set_put`). -/
def beginCommit (g : Graph) (env : Env) (r : Run) (k : ℕ) : Run :=
  let f := r.flight k
  let r := { r with
    digest := storeDigests r.digest ((g.produces k).zip f.digests)
    main := .commit k }
  if g.actionKind k = some .discovered then
    let kept := f.rows.filter fun o => !g.roots.pins o.path.root
    let set : Pathset := ⟨pinnedDigest env.hash g.roots f.rows, kept⟩
    { r with
      discovery := update r.discovery f.key (some set)
      flight := update r.flight k { f with rows := [], under := kept } }
  else r

/-- `commit` returns to `run_commit_flight`. -/
def endCommit (g : Graph) (r : Run) (k : ℕ) (err : Option Err) : Run :=
  match err with
  | some e => { r with err := some e, main := .loop }
  | none => finishAction g { r with main := .loop } k

/-! ## Dispatch and completion -/

/-- The end of `run_dispatch`: reset the attempt and submit the job. -/
def submit (r : Run) (k : ℕ) : Run :=
  { r with
    flight := update r.flight k { r.flight k with
      err := none, hit := false, key := .zero, rows := [], found := false, under := [] }
    phase := update r.phase k .queued
    jobs := k :: r.jobs
    inFlight := r.inFlight + 1 }

/-- `run_dispatch` from the test for a discovered action on. -/
def dispatchLookup (g : Graph) (env : Env) (r : Run) (k : ℕ) : Run :=
  if g.actionKind k = some .discovered then
    match r.discovery (weakKey env.hash g r.digest k) with
    | some set =>
      let (r, requeue) := deferObservations g k set.obs r.completed r
      if 0 < r.deferred k then r
      else if requeue then { r with main := .aborted .firstLookup }
      else submit r k
    | none => submit r k
  else submit r k

/-- `run_dispatch`. -/
def runDispatch (g : Graph) (env : Env) (r : Run) (k : ℕ) : Run :=
  if r.parked k then
    let (r, requeue) := deferObservations g k (r.flight k).rows (r.flight k).epoch r
    if 0 < r.deferred k then r
    else
      let r := { r with parked := update r.parked k false }
      if requeue then dispatchLookup g env r k else beginCommit g env r k
  else dispatchLookup g env r k

/-- `run_complete`. -/
def runComplete (g : Graph) (env : Env) (r : Run) (k : ℕ) : Run :=
  let f := r.flight k
  if r.err.isSome ∨ f.err.isSome then { r with err := r.err <|> f.err }
  else if f.hit then finishAction g r k
  else if g.actionKind k = some .discovered then
    let (r, requeue) := deferObservations g k f.rows f.epoch r
    if 0 < r.deferred k then { r with parked := update r.parked k true }
    else if requeue then { r with ready := k :: r.ready }
    else beginCommit g env r k
  else beginCommit g env r k

/-! ## The main loop -/

/-- `turns_max`, in the 64-bit arithmetic of the source. -/
def turnsMax (n : ℕ) : ℕ := 4 * (n + 1) * (n + 1) % 2 ^ 64

/-- The head of a turn: count it and look at the cancel flag. -/
def headOfTurn (r : Run) (cancel : Bool) : Run :=
  { r with
    turns := r.turns + 1
    err := if r.err.isNone ∧ cancel then some .cancelled else r.err }

/-- A turn in which the executor hands nothing back without blocking. When it
can neither dispatch nor leave, it blocks until a job is handed back. -/
def idleTurn (g : Graph) (env : Env) (r : Run) : Option Run :=
  match r.err, r.ready with
  | none, k :: rest => some (runDispatch g env { r with ready := rest } k)
  | _, _ => if r.inFlight = 0 then some { r with main := .exited } else none

/-- The turn once its head has passed the assertion. -/
def turnBody (g : Graph) (env : Env) (r : Run) : Option ℕ → Option Run
  | some k =>
    if k ∈ r.jobs ∧ r.phase k = .finished then
      some (runComplete g env { r with jobs := r.jobs.erase k, inFlight := r.inFlight - 1 } k)
    else none
  | none => idleTurn g env r

/-- One turn of the main loop. -/
def turn (g : Graph) (env : Env) (r : Run) (cancel : Bool) (job : Option ℕ) : Option Run :=
  if r.main = .loop then
    let r := headOfTurn r cancel
    if r.turns ≤ turnsMax g.actions.length then turnBody g env r job
    else some { r with main := .aborted .turns }
  else none

/-! ## Workers -/

/-- The worker of an action's job stands at a phase. -/
def At (r : Run) (k : ℕ) (phase : Phase) : Prop := k ∈ r.jobs ∧ r.phase k = phase

instance (r : Run) (k : ℕ) (phase : Phase) : Decidable (r.At k phase) :=
  inferInstanceAs (Decidable (_ ∧ _))

/-- `flight_run` up to the call of `lookup`. -/
def workerBegin (r : Run) (k : ℕ) : Run :=
  { r with
    flight := update r.flight k { r.flight k with epoch := r.completed }
    phase := update r.phase k .looking }

/-- What `lookup` finds before it asks the action cache: the weak key, whether
it asks, and the rows it asks with. -/
def workerLookup (g : Graph) (env : Env) (r : Run) (k : ℕ) : Run :=
  let key := weakKey env.hash g r.digest k
  let f := r.flight k
  let f := match g.actionKind k with
    | some .static => { f with key := key, found := true }
    | some .discovered =>
      match r.discovery key with
      | some set => { f with key := key, found := true, under := set.obs }
      | none => { f with key := key }
    | _ => f
  { r with flight := update r.flight k f, phase := update r.phase k .looked }

/-- `restore_entry` has stored the digests and `settle` has cleared `wrote`. -/
def workerRestore (g : Graph) (r : Run) (k : ℕ) (outputs : List Digest) : Run :=
  { r with
    digest := storeDigests r.digest ((g.produces k).zip outputs)
    wrote := update r.wrote k false
    phase := update r.phase k .settling }

/-- `try_restore` returns: a hit ends the job, a miss goes on to execute. -/
def workerRestored (r : Run) (k : ℕ) (ok : Bool) : Run :=
  if ok then
    { r with
      flight := update r.flight k { r.flight k with hit := true }
      phase := update r.phase k .finished }
  else { r with phase := update r.phase k .executing }

/-- `execute` returns. -/
def workerExecute (r : Run) (k : ℕ) (err : Option Err) (rows : List Obs)
    (digests : List Digest) : Run :=
  { r with
    flight := update r.flight k { r.flight k with
      err := err, rows := canonicalize rows, digests := digests }
    phase := update r.phase k .finished
    reported := r.reported ++ [(k, rows)] }

/-- One event. Nothing when it is not enabled. -/
def step (g : Graph) (env : Env) (r : Run) : Event W → Option Run
  | .begin k => if r.At k .queued then some (r.workerBegin k) else none
  | .lookup k => if r.At k .looking then some (r.workerLookup g env k) else none
  | .miss k =>
    if r.At k .looked then some { r with phase := update r.phase k .executing } else none
  | .restore k outputs =>
    if r.At k .looked ∧ (r.flight k).found ∧ outputs.length = (g.produces k).length then
      some (r.workerRestore g k outputs)
    else none
  | .write k _ =>
    if r.At k .settling ∨ r.main = .settle k then
      some { r with wrote := update r.wrote k true }
    else none
  | .restored k ok => if r.At k .settling then some (r.workerRestored k ok) else none
  | .execute k err rows digests =>
    -- only a discovered action may report rows, and every output has a digest
    if r.At k .executing ∧ (g.actionKind k = some .discovered ∨ rows = [])
        ∧ digests.length = (g.produces k).length then
      some (r.workerExecute k err rows digests)
    else none
  | .turn cancel job => r.turn g env cancel job
  | .settle =>
    match r.main with
    | .commit k => some { r with wrote := update r.wrote k false, main := .settle k }
    | _ => none
  | .commit err =>
    match r.main with
    | .settle k => some (r.endCommit g k err)
    | _ => none

/-! ## Start and result -/

/-- `seed_sources`: the digest of every artifact at the start, or the error. -/
def seedDigest (g : Graph) (env : Env) (i : ℕ) : Option Digest :=
  match g.artifacts[i]? with
  | some x =>
    if x.kind = .file ∧ x.producer = none then
      if g.roots.pins x.path.root then some (pathDigest env.hash x.path)
      else (env.files x.path).map env.hash
    else some x.digest
  | none => some .zero

/-- The state at the head of the first turn. -/
def first (g : Graph) (env : Env) : Run :=
  let digest := fun i => (seedDigest g env i).getD .zero
  let pending := fun k => (g.consumes k).countP fun a => !(digest a).valid
  { digest := digest
    wrote := fun _ => false
    pending := pending
    deferred := fun _ => 0
    done := fun _ => false
    parked := fun _ => false
    doneEpoch := fun _ => 0
    waiters := fun _ => []
    flight := fun _ => ⟨0, none, false, .zero, [], [], false, []⟩
    phase := fun _ => .queued
    ready := ((List.range g.actions.length).filter fun k => pending k = 0).reverse
    jobs := []
    completed := 0
    inFlight := 0
    err := none
    turns := 0
    discovery := env.discovery
    main := .loop
    finished := []
    reported := [] }

/-- `spn_dag_run_executor` before its loop. -/
def start (g : Graph) (env : Env) : Except Err Run :=
  match env.fence with
  | some e => .error e
  | none =>
    match g.validate with
    | some e => .error e
    | none =>
      if (List.range g.artifacts.length).all fun i => (seedDigest g env i).isSome then
        .ok (first g env)
      else .error .missingInput

/-- What `spn_dag_run_executor` returns once its loop is over. -/
def result (g : Graph) (r : Run) : Option Err :=
  match r.err with
  | some e => some e
  | none => if r.completed ≠ g.actions.length then some .stalled else none

/-- A state some interleaving reaches. -/
def Reaches (g : Graph) (env : Env) (es : List (Event W)) (r : Run) : Prop :=
  ∃ r₀, start g env = .ok r₀ ∧ replay (step g env) r₀ es = some r

end Run
end Spn.Dag
