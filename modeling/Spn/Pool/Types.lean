import Mathlib

/-! # The thread pool

`util/thread_pool/thread_pool.c`: workers that run jobs from a stack, and one thread that submits
jobs and polls for those that are done. A step is one critical section of a thread, the call of a
job, or one notification; a thread that waits on a condition variable is asleep until it is
notified, or wakes up without a reason. The steps of the threads come in any order.
-/
namespace Spn.Pool

/-- Where a thread is in `spn_thread_pool_step`. -/
inductive Stage (J : Type)
  | take
  | run (job : J)
  | push (job : J)
  | notify
  deriving DecidableEq

/-- Where a thread is in `pool_worker`. -/
inductive Worker (J : Type)
  | loop
  | asleep
  | within (stage : Stage J)
  | leaving
  | gone
  deriving DecidableEq

/-- Where the thread that has the pool is: in `pool_submit`, `pool_poll`, `spn_thread_pool_step`,
`spn_thread_pool_wait` or `spn_thread_pool_deinit`. It has failed when an assertion did not
hold. -/
inductive Caller (J : Type)
  | idle
  | signalling
  | poll
  | pollAsleep
  | pollWithin (stage : Stage J)
  | stepWithin (stage : Stage J)
  | wait
  | waitAsleep
  | closing
  | joining
  | closed
  | failed
  deriving DecidableEq

/-- `spn_thread_pool_t`, where the threads are, and what has happened: the jobs that were submitted,
that have run, and that were returned, and how often `on_worker_exit` was called. -/
structure State (W J : Type) where
  queue : List J
  done : List J
  submitted : UInt32
  completed : UInt32
  shutdown : Bool
  workers : W → Worker J
  caller : Caller J
  asked : List J
  ran : List J
  returned : List J
  exits : ℕ

variable {W J : Type}

/-- `spn_thread_pool_init`. -/
def State.init : State W J where
  queue := []
  done := []
  submitted := 0
  completed := 0
  shutdown := false
  workers _ := .loop
  caller := .idle
  asked := []
  ran := []
  returned := []
  exits := 0

/-- `sp_cv_notify_all` of `completed`. -/
def Caller.woken : Caller J → Caller J
  | .pollAsleep => .poll
  | .waitAsleep => .wait
  | c => c

/-- `sp_cv_notify_all` of `submitted`. -/
def Worker.woken : Worker J → Worker J
  | .asleep => .loop
  | w => w

/-- Where a worker is after a stage. -/
def Worker.after : Option (Stage J) → Worker J
  | some stage => .within stage
  | none => .loop

/-- Where a poll is after a stage. -/
def Caller.afterPoll : Option (Stage J) → Caller J
  | some stage => .pollWithin stage
  | none => .poll

/-- Where a call of `spn_thread_pool_step` is after a stage. -/
def Caller.afterStep : Option (Stage J) → Caller J
  | some stage => .stepWithin stage
  | none => .idle

/-- A call. -/
inductive Call (J : Type)
  | submit (job : J)
  | poll
  | tryPoll
  | step
  | wait
  | deinit

/-- `spn_thread_pool_pending`. -/
def State.pending (s : State W J) : UInt32 := s.submitted - s.completed

namespace State

/-- The worker goes on. -/
@[simps] def goto [DecidableEq W] (s : State W J) (w : W) (pc : Worker J) : State W J :=
  { s with workers := Function.update s.workers w pc }

/-- The caller goes on. -/
@[simps] def enter (s : State W J) (pc : Caller J) : State W J := { s with caller := pc }

end State

/-- `spn_thread_pool_step`, of any thread, with the stage that follows, if one does. -/
inductive StageStep (s : State W J) : Stage J → State W J → Option (Stage J) → Prop
  | takeNone (h : s.queue = []) : StageStep s .take s none
  | take {queue : List J} {job : J} (h : s.queue = queue ++ [job]) :
      StageStep s .take { s with queue := queue } (some (.run job))
  | run {job : J} : StageStep s (.run job) { s with ran := s.ran ++ [job] } (some (.push job))
  | push {job : J} :
      StageStep s (.push job) { s with
        done := s.done ++ [job], completed := s.completed + 1 } (some .notify)
  | notify : StageStep s .notify (s.enter s.caller.woken) none

variable [DecidableEq W]

/-- A step of `pool_worker`. -/
inductive WorkerStep (w : W) (s : State W J) : State W J → Prop
  | sleep (h : s.workers w = .loop) (hshutdown : s.shutdown = false) (hqueue : s.queue = []) :
      WorkerStep w s (s.goto w .asleep)
  | go (h : s.workers w = .loop) (hshutdown : s.shutdown = false) (hqueue : s.queue ≠ []) :
      WorkerStep w s (s.goto w (.within .take))
  | leave (h : s.workers w = .loop) (hshutdown : s.shutdown = true) :
      WorkerStep w s (s.goto w .leaving)
  | exit (h : s.workers w = .leaving) :
      WorkerStep w s ({ s with exits := s.exits + 1 }.goto w .gone)
  | stage {stage : Stage J} {t : State W J} {next : Option (Stage J)}
      (h : s.workers w = .within stage) (hstage : StageStep s stage t next) :
      WorkerStep w s (t.goto w (.after next))

/-- A call begins: `pool_submit` and `spn_thread_pool_deinit` up to their notifications, and
`pool_try_poll`. -/
inductive CallStep (s : State W J) : Call J → State W J → Prop
  | submit (job : J) :
      CallStep s (.submit job) ({ s with
        queue := s.queue ++ [job], submitted := s.submitted + 1,
        asked := s.asked ++ [job] }.enter .signalling)
  | poll : CallStep s .poll (s.enter .poll)
  | tryPollNone (hdone : s.done = []) : CallStep s .tryPoll s
  | tryPoll {done : List J} {job : J} (hdone : s.done = done ++ [job]) :
      CallStep s .tryPoll { s with done := done, returned := s.returned ++ [job] }
  | step : CallStep s .step (s.enter (.stepWithin .take))
  | wait : CallStep s .wait (s.enter .wait)
  | deinit (hqueue : s.queue = []) :
      CallStep s .deinit ({ s with shutdown := true }.enter .closing)
  | deinitAssert (hqueue : s.queue ≠ []) : CallStep s .deinit (s.enter .failed)

/-- A step of a call that has begun. -/
inductive CallerStep (s : State W J) : State W J → Prop
  | notifyNone (h : s.caller = .signalling) (hnone : ∀ w, s.workers w ≠ .asleep) :
      CallerStep s (s.enter .idle)
  | notifyOne (h : s.caller = .signalling) {w : W} (hw : s.workers w = .asleep) :
      CallerStep s ((s.goto w .loop).enter .idle)
  | pollSleep (h : s.caller = .poll) (hworkers : Nonempty W) (hdone : s.done = []) :
      CallerStep s (s.enter .pollAsleep)
  | pollTake (h : s.caller = .poll) {done : List J} {job : J} (hdone : s.done = done ++ [job]) :
      CallerStep s ({ s with done := done, returned := s.returned ++ [job] }.enter .idle)
  | pollStep (h : s.caller = .poll) (hworkers : IsEmpty W) (hdone : s.done = [])
      (hqueue : s.queue ≠ []) : CallerStep s (s.enter (.pollWithin .take))
  | pollAssert (h : s.caller = .poll) (hworkers : IsEmpty W) (hdone : s.done = [])
      (hqueue : s.queue = []) : CallerStep s (s.enter .failed)
  | pollStage {stage : Stage J} {t : State W J} {next : Option (Stage J)}
      (h : s.caller = .pollWithin stage) (hstage : StageStep s stage t next) :
      CallerStep s (t.enter (.afterPoll next))
  | stepStage {stage : Stage J} {t : State W J} {next : Option (Stage J)}
      (h : s.caller = .stepWithin stage) (hstage : StageStep s stage t next) :
      CallerStep s (t.enter (.afterStep next))
  | waitSleep (h : s.caller = .wait) (hcount : s.completed ≠ s.submitted) :
      CallerStep s (s.enter .waitAsleep)
  | waitDone (h : s.caller = .wait) (hcount : s.completed = s.submitted) :
      CallerStep s (s.enter .idle)
  | notifyAll (h : s.caller = .closing) :
      CallerStep s ({ s with workers := fun w => (s.workers w).woken }.enter .joining)
  | join (h : s.caller = .joining) (hworkers : ∀ w, s.workers w = .gone) :
      CallerStep s (s.enter .closed)

/-- A thread wakes up that nobody has notified. -/
inductive Spurious (s : State W J) : State W J → Prop
  | worker {w : W} (hup : s.caller ≠ .failed) (h : s.workers w = .asleep) :
      Spurious s (s.goto w .loop)
  | caller (h : s.caller = .pollAsleep ∨ s.caller = .waitAsleep) :
      Spurious s (s.enter s.caller.woken)

/-- A step that neither begins a call nor wakes a thread for no reason. Nothing moves any more
once an assertion has failed. -/
inductive Step (s : State W J) : State W J → Prop
  | worker {t : State W J} (w : W) (hup : s.caller ≠ .failed) (h : WorkerStep w s t) : Step s t
  | caller {t : State W J} (h : CallerStep s t) : Step s t

/-- What can come of a pool whose caller calls what the relation allows, and only that. -/
inductive Reachable (R : State W J → Call J → Prop) : State W J → Prop
  | init : Reachable R .init
  | call {s t : State W J} {call : Call J} (hs : Reachable R s) (h : s.caller = .idle)
      (hallowed : R s call) (hcall : CallStep s call t) : Reachable R t
  | step {s t : State W J} (hs : Reachable R s) (h : Step s t) : Reachable R t
  | spurious {s t : State W J} (hs : Reachable R s) (h : Spurious s t) : Reachable R t

/-- A job was submitted that has not been returned. -/
def State.Owing (s : State W J) : Prop := s.returned.length < s.asked.length

/-- What the pool leaves to its caller: to poll for a job only when one was submitted that has not
been returned, to wait only when there are workers or nothing to wait for, and to close the pool
only when none of fewer than `2 ^ 32` jobs is pending, as after a wait. -/
def Call.Proper (s : State W J) : Call J → Prop
  | .poll => s.Owing
  | .wait => Nonempty W ∨ s.completed = s.submitted
  | .deinit => s.pending = 0 ∧ s.asked.length < s.done.length + s.returned.length + 2 ^ 32
  | .submit _ | .tryPoll | .step => True

end Spn.Pool
