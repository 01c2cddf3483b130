import Spn.Pool.Types

/-! # Where the jobs are

Every job that was submitted is in one place: on the stack, with a thread that runs it, among those
that are done, or returned. It has run once when it comes to be done.
-/
namespace Spn.Pool

set_option linter.unusedSectionVars false

variable {W J : Type} {s t : State W J}

/-- The job a thread has taken and not pushed yet. -/
def Stage.held : Stage J → Multiset J
  | .run job | .push job => {job}
  | _ => 0

/-- The job a thread has run and not pushed yet. -/
def Stage.finished : Stage J → Multiset J
  | .push job => {job}
  | _ => 0

/-- What the stages say of a worker. -/
def Worker.stageOf : Worker J → Option (Stage J)
  | .within stage => some stage
  | _ => none

def Caller.stageOf : Caller J → Option (Stage J)
  | .pollWithin stage | .stepWithin stage => some stage
  | _ => none

def Worker.isGone : Worker J → Bool
  | .gone => true
  | _ => false

def heldOf (stage : Option (Stage J)) : Multiset J := stage.elim 0 Stage.held

def finishedOf (stage : Option (Stage J)) : Multiset J := stage.elim 0 Stage.finished

@[simp] theorem heldOf_none : heldOf (none : Option (Stage J)) = 0 := rfl

@[simp] theorem heldOf_some (stage : Stage J) : heldOf (some stage) = stage.held := rfl

@[simp] theorem finishedOf_none : finishedOf (none : Option (Stage J)) = 0 := rfl

@[simp] theorem finishedOf_some (stage : Stage J) : finishedOf (some stage) = stage.finished := rfl

@[simp] theorem stageOf_after (next : Option (Stage J)) : (Worker.after next).stageOf = next := by
  cases next <;> rfl

@[simp] theorem stageOf_afterPoll (next : Option (Stage J)) :
    (Caller.afterPoll next).stageOf = next := by
  cases next <;> rfl

@[simp] theorem stageOf_afterStep (next : Option (Stage J)) :
    (Caller.afterStep next).stageOf = next := by
  cases next <;> rfl

@[simp] theorem stageOf_woken (caller : Caller J) : caller.woken.stageOf = caller.stageOf := by
  cases caller <;> rfl

@[simp] theorem stageOf_woken_worker (worker : Worker J) :
    worker.woken.stageOf = worker.stageOf := by
  cases worker <;> rfl

/-- What a stage does to the jobs, and what it leaves alone. -/
structure StageStep.Effect (s : State W J) (stage : Stage J) (t : State W J)
    (next : Option (Stage J)) : Prop where
  jobs : (t.queue + heldOf next + t.done : Multiset J) = s.queue + stage.held + s.done
  runs : (t.ran + stage.finished + s.done : Multiset J) = s.ran + finishedOf next + t.done
  completed : ∃ n, t.done.length = s.done.length + n ∧ t.completed = s.completed + UInt32.ofNat n
  workers : t.workers = s.workers
  caller : t.caller = s.caller ∨ t.caller = s.caller.woken
  asked : t.asked = s.asked
  returned : t.returned = s.returned
  submitted : t.submitted = s.submitted
  shutdown : t.shutdown = s.shutdown
  exits : t.exits = s.exits

theorem StageStep.effect {stage : Stage J} {next : Option (Stage J)}
    (h : StageStep s stage t next) : StageStep.Effect s stage t next := by
  cases h with
  | takeNone h => exact ⟨by simp [Stage.held], by simp [Stage.finished], ⟨0, rfl, by simp⟩, rfl,
      .inl rfl, rfl, rfl, rfl, rfl, rfl⟩
  | @take queue job h =>
    refine ⟨?_, by simp [Stage.finished], ⟨0, rfl, by simp⟩, rfl, .inl rfl, rfl, rfl, rfl, rfl,
      rfl⟩
    rw [h, ← Multiset.coe_add]
    simp [Stage.held]
  | @run job =>
    refine ⟨rfl, ?_, ⟨0, rfl, by simp⟩, rfl, .inl rfl, rfl, rfl, rfl, rfl, rfl⟩
    simp [Stage.finished, ← Multiset.coe_add]
  | @push job =>
    refine ⟨?_, ?_, ⟨1, by simp, rfl⟩, rfl, .inl rfl, rfl, rfl, rfl, rfl, rfl⟩
    · simp only [heldOf_some, Stage.held, ← Multiset.coe_add, Multiset.coe_singleton]
      abel
    · simp only [finishedOf_some, Stage.finished, ← Multiset.coe_add, Multiset.coe_singleton]
      abel
  | notify => exact ⟨rfl, rfl, ⟨0, rfl, by simp⟩, rfl, .inr rfl, rfl, rfl, rfl, rfl, rfl⟩

section Books

variable [Fintype W]

/-- The jobs that threads have taken and not pushed yet. -/
def State.held (s : State W J) : Multiset J :=
  ∑ w, heldOf (s.workers w).stageOf + heldOf s.caller.stageOf

/-- The jobs that threads have run and not pushed yet. -/
def State.finished (s : State W J) : Multiset J :=
  ∑ w, finishedOf (s.workers w).stageOf + finishedOf s.caller.stageOf

/-- How many workers have returned. -/
def State.left (s : State W J) : ℕ := ∑ w, (s.workers w).isGone.toNat

/-- Where the jobs are, and what the counters say of them. -/
structure Books (s : State W J) : Prop where
  asked : (s.asked : Multiset J) = s.queue + s.held + s.done + s.returned
  ran : (s.ran : Multiset J) = s.finished + s.done + s.returned
  submitted : s.submitted = UInt32.ofNat s.asked.length
  completed : s.completed = UInt32.ofNat (s.done.length + s.returned.length)
  exits : s.exits = s.left

theorem books_init : Books (State.init : State W J) where
  asked := by simp [State.init, State.held, Worker.stageOf, Caller.stageOf]
  ran := by simp [State.init, State.finished, Worker.stageOf, Caller.stageOf]
  submitted := rfl
  completed := rfl
  exits := by simp [State.init, State.left, Worker.isGone]

variable [DecidableEq W]

/-- A sum over the workers when one of them has gone on. -/
theorem sum_update {M : Type} [AddCommMonoid M] (workers : W → Worker J) (w : W) (pc : Worker J)
    (f : Worker J → M) :
    ∑ v, f (Function.update workers w pc v) + f (workers w) = ∑ v, f (workers v) + f pc := by
  have hrest : ∑ v ∈ Finset.univ.erase w, f (Function.update workers w pc v) =
      ∑ v ∈ Finset.univ.erase w, f (workers v) :=
    Finset.sum_congr rfl fun v hv => by rw [Function.update_of_ne (Finset.ne_of_mem_erase hv)]
  rw [← Finset.add_sum_erase _ _ (Finset.mem_univ w), hrest, Function.update_self,
    ← Finset.add_sum_erase (f := fun v => f (workers v)) _ (Finset.mem_univ w)]
  abel

variable {w : W} {stage : Stage J} {next : Option (Stage J)}

theorem held_goto (s : State W J) (w : W) (pc : Worker J) :
    (s.goto w pc).held + heldOf (s.workers w).stageOf = s.held + heldOf pc.stageOf := by
  have hsum := sum_update s.workers w pc fun worker => heldOf worker.stageOf
  simp only [State.held, State.goto_workers, State.goto_caller]
  rw [add_right_comm, hsum, add_right_comm]

theorem finished_goto (s : State W J) (w : W) (pc : Worker J) :
    (s.goto w pc).finished + finishedOf (s.workers w).stageOf =
      s.finished + finishedOf pc.stageOf := by
  have hsum := sum_update s.workers w pc fun worker => finishedOf worker.stageOf
  simp only [State.finished, State.goto_workers, State.goto_caller]
  rw [add_right_comm, hsum, add_right_comm]

theorem left_goto (s : State W J) (w : W) (pc : Worker J) :
    (s.goto w pc).left + (s.workers w).isGone.toNat = s.left + pc.isGone.toNat :=
  sum_update s.workers w pc fun worker => worker.isGone.toNat

namespace Books

/-- A worker goes on and holds what it held. -/
theorem goto (h : Books s) {pc : Worker J} {exits : ℕ}
    (hheld : heldOf pc.stageOf = heldOf (s.workers w).stageOf)
    (hfinished : finishedOf pc.stageOf = finishedOf (s.workers w).stageOf)
    (hexits : exits + (s.workers w).isGone.toNat = s.exits + pc.isGone.toNat) :
    Books ({ s with exits := exits }.goto w pc) where
  asked := by
    have hgoto := held_goto { s with exits := exits } w pc
    rw [hheld, add_left_inj] at hgoto
    rw [hgoto]
    exact h.asked
  ran := by
    have hgoto := finished_goto { s with exits := exits } w pc
    rw [hfinished, add_left_inj] at hgoto
    rw [hgoto]
    exact h.ran
  submitted := h.submitted
  completed := h.completed
  exits := by
    have hleft := left_goto { s with exits := exits } w pc
    have hexits' : exits + (s.workers w).isGone.toNat = s.left + pc.isGone.toNat := by
      rw [hexits, h.exits]
    exact Nat.add_right_cancel (hexits'.trans hleft.symm)

/-- The caller goes on and holds what it held. -/
theorem enter (h : Books s) {pc : Caller J} (hheld : heldOf pc.stageOf = heldOf s.caller.stageOf)
    (hfinished : finishedOf pc.stageOf = finishedOf s.caller.stageOf) : Books (s.enter pc) where
  asked := by
    rw [State.held, State.enter_caller, hheld]
    exact h.asked
  ran := by
    rw [State.finished, State.enter_caller, hfinished]
    exact h.ran
  submitted := h.submitted
  completed := h.completed
  exits := h.exits

/-- The stage of one thread moves jobs; what it holds changes by as much. -/
theorem moved {held finished : Multiset J} (h : Books s) (heffect : StageStep.Effect s stage t next)
    (hheld : held + stage.held = s.held + heldOf next)
    (hfinished : finished + stage.finished = s.finished + finishedOf next) :
    (t.asked : Multiset J) = t.queue + held + t.done + t.returned ∧
      (t.ran : Multiset J) = finished + t.done + t.returned := by
  rw [heffect.asked, heffect.returned]
  constructor
  · refine add_right_cancel (b := stage.held + heldOf next) ?_
    calc (s.asked + (stage.held + heldOf next) : Multiset J)
        = (s.queue + stage.held + s.done) + (s.held + heldOf next) + s.returned := by
          rw [h.asked]
          abel
      _ = t.queue + held + t.done + s.returned + (stage.held + heldOf next) := by
          rw [← heffect.jobs, ← hheld]
          abel
  · refine add_right_cancel (b := stage.finished + s.done) ?_
    calc (t.ran + (stage.finished + s.done) : Multiset J)
        = s.ran + finishedOf next + t.done := by rw [← heffect.runs, add_assoc]
      _ = (s.finished + finishedOf next) + s.done + s.returned + t.done := by
          rw [h.ran]
          abel
      _ = finished + t.done + s.returned + (stage.finished + s.done) := by
          rw [← hfinished]
          abel

/-- The counters after a stage. -/
theorem counts (h : Books s) (heffect : StageStep.Effect s stage t next) :
    t.submitted = UInt32.ofNat t.asked.length ∧
      t.completed = UInt32.ofNat (t.done.length + t.returned.length) := by
  obtain ⟨n, hdone, hcompleted⟩ := heffect.completed
  constructor
  · rw [heffect.submitted, heffect.asked, h.submitted]
  · rw [hcompleted, hdone, heffect.returned, h.completed, ← UInt32.ofNat_add]
    congr 1
    omega

theorem stageWorker (h : Books s) (hw : s.workers w = .within stage)
    (hstage : StageStep s stage t next) : Books (t.goto w (.after next)) := by
  have heffect := hstage.effect
  have hcaller : t.caller.stageOf = s.caller.stageOf := by
    obtain hsame | hwoken := heffect.caller
    · rw [hsame]
    · rw [hwoken, stageOf_woken]
  have hheld : (t.goto w (.after next)).held + stage.held = s.held + heldOf next := by
    have hgoto := held_goto t w (.after next)
    rw [heffect.workers, hw, stageOf_after] at hgoto
    simpa [State.held, heffect.workers, hcaller, Worker.stageOf] using hgoto
  have hfinished : (t.goto w (.after next)).finished + stage.finished =
      s.finished + finishedOf next := by
    have hgoto := finished_goto t w (.after next)
    rw [heffect.workers, hw, stageOf_after] at hgoto
    simpa [State.finished, heffect.workers, hcaller, Worker.stageOf] using hgoto
  have hleft : (t.goto w (.after next)).left = s.left := by
    have hgoto := left_goto t w (.after next)
    rw [heffect.workers, hw] at hgoto
    have hgone : (Worker.after next).isGone = false := by cases next <;> rfl
    rw [hgone] at hgoto
    simpa [State.left, heffect.workers, Worker.isGone] using hgoto
  obtain ⟨hasked, hran⟩ := h.moved heffect hheld hfinished
  obtain ⟨hsubmitted, hcompleted⟩ := h.counts heffect
  refine ⟨hasked, hran, hsubmitted, hcompleted, ?_⟩
  rw [hleft, ← h.exits]
  exact heffect.exits

theorem stageCaller (h : Books s) (hcaller : s.caller.stageOf = some stage)
    (hstage : StageStep s stage t next) {pc : Caller J} (hpc : pc.stageOf = next) :
    Books (t.enter pc) := by
  have heffect := hstage.effect
  have hheld : (t.enter pc).held + stage.held = s.held + heldOf next := by
    change ∑ w, heldOf (t.workers w).stageOf + heldOf pc.stageOf + stage.held = _
    rw [State.held, hcaller, hpc, heffect.workers, heldOf_some]
    exact add_right_comm _ _ _
  have hfinished : (t.enter pc).finished + stage.finished = s.finished + finishedOf next := by
    change ∑ w, finishedOf (t.workers w).stageOf + finishedOf pc.stageOf + stage.finished = _
    rw [State.finished, hcaller, hpc, heffect.workers, finishedOf_some]
    exact add_right_comm _ _ _
  obtain ⟨hasked, hran⟩ := h.moved heffect hheld hfinished
  obtain ⟨hsubmitted, hcompleted⟩ := h.counts heffect
  refine ⟨hasked, hran, hsubmitted, hcompleted, ?_⟩
  change t.exits = ∑ w, (t.workers w).isGone.toNat
  rw [heffect.workers, heffect.exits]
  exact h.exits

theorem worker (h : Books s) (hstep : WorkerStep w s t) : Books t := by
  cases hstep with
  | sleep hw _ _ => exact h.goto (by rw [hw]; rfl) (by rw [hw]; rfl) (by rw [hw]; rfl)
  | go hw _ _ => exact h.goto (by rw [hw]; rfl) (by rw [hw]; rfl) (by rw [hw]; rfl)
  | leave hw _ => exact h.goto (by rw [hw]; rfl) (by rw [hw]; rfl) (by rw [hw]; rfl)
  | exit hw => exact h.goto (by rw [hw]; rfl) (by rw [hw]; rfl) (by rw [hw]; rfl)
  | stage hw hstage => exact h.stageWorker hw hstage

/-- A job that is done is returned. -/
theorem take (h : Books s) {done : List J} {job : J} (hdone : s.done = done ++ [job]) :
    Books { s with done := done, returned := s.returned ++ [job] } where
  asked := by
    have hasked := h.asked
    rw [hdone, ← Multiset.coe_add] at hasked
    change (s.asked : Multiset J) = s.queue + s.held + done + ↑(s.returned ++ [job])
    rw [← Multiset.coe_add, hasked]
    abel
  ran := by
    have hran := h.ran
    rw [hdone, ← Multiset.coe_add] at hran
    change (s.ran : Multiset J) = s.finished + done + ↑(s.returned ++ [job])
    rw [← Multiset.coe_add, hran]
    abel
  submitted := h.submitted
  completed := by
    change s.completed = UInt32.ofNat (done.length + (s.returned ++ [job]).length)
    rw [h.completed, hdone, List.length_append, List.length_append]
    congr 1
    omega
  exits := h.exits

theorem submit (h : Books s) (job : J) :
    Books { s with
      queue := s.queue ++ [job], submitted := s.submitted + 1, asked := s.asked ++ [job] } where
  asked := by
    change (↑(s.asked ++ [job]) : Multiset J) = ↑(s.queue ++ [job]) + s.held + s.done + s.returned
    rw [← Multiset.coe_add, ← Multiset.coe_add, h.asked]
    abel
  ran := h.ran
  submitted := by
    rw [h.submitted, List.length_append, UInt32.ofNat_add]
    rfl
  completed := h.completed
  exits := h.exits

theorem call (h : Books s) (hidle : s.caller = .idle) {call : Call J}
    (hcall : CallStep s call t) : Books t := by
  cases hcall with
  | submit job => exact (h.submit job).enter (by rw [hidle]; rfl) (by rw [hidle]; rfl)
  | poll => exact h.enter (by rw [hidle]; rfl) (by rw [hidle]; rfl)
  | tryPollNone _ => exact h
  | tryPoll hdone => exact h.take hdone
  | step => exact h.enter (by rw [hidle]; rfl) (by rw [hidle]; rfl)
  | wait => exact h.enter (by rw [hidle]; rfl) (by rw [hidle]; rfl)
  | deinitAssert _ => exact h.enter (by rw [hidle]; rfl) (by rw [hidle]; rfl)
  | deinit _ =>
    have hclosing : Books { s with shutdown := true } :=
      ⟨h.asked, h.ran, h.submitted, h.completed, h.exits⟩
    exact hclosing.enter (by rw [hidle]; rfl) (by rw [hidle]; rfl)

/-- All workers that are asleep wake up. -/
theorem wokenWorkers (h : Books s) :
    Books { s with workers := fun w => (s.workers w).woken } where
  asked := by
    simp only [State.held, stageOf_woken_worker]
    exact h.asked
  ran := by
    simp only [State.finished, stageOf_woken_worker]
    exact h.ran
  submitted := h.submitted
  completed := h.completed
  exits := by
    rw [h.exits, State.left, State.left]
    refine Finset.sum_congr rfl fun w _ => ?_
    cases hw : s.workers w <;> simp [Worker.woken, Worker.isGone, hw]

theorem caller (h : Books s) (hstep : CallerStep s t) : Books t := by
  cases hstep with
  | notifyNone hs _ => exact h.enter (by rw [hs]; rfl) (by rw [hs]; rfl)
  | notifyOne hs hw =>
    have hgoto : Books (s.goto _ .loop) :=
      h.goto (by rw [hw]; rfl) (by rw [hw]; rfl) (by rw [hw]; rfl)
    exact hgoto.enter (by rw [State.goto_caller, hs]; rfl) (by rw [State.goto_caller, hs]; rfl)
  | pollSleep hs _ _ => exact h.enter (by rw [hs]; rfl) (by rw [hs]; rfl)
  | pollTake hs hdone => exact (h.take hdone).enter (by rw [hs]; rfl) (by rw [hs]; rfl)
  | pollStep hs _ _ _ => exact h.enter (by rw [hs]; rfl) (by rw [hs]; rfl)
  | pollAssert hs _ _ _ => exact h.enter (by rw [hs]; rfl) (by rw [hs]; rfl)
  | pollStage hs hstage => exact h.stageCaller (by rw [hs]; rfl) hstage (stageOf_afterPoll _)
  | stepStage hs hstage => exact h.stageCaller (by rw [hs]; rfl) hstage (stageOf_afterStep _)
  | waitSleep hs _ => exact h.enter (by rw [hs]; rfl) (by rw [hs]; rfl)
  | waitDone hs _ => exact h.enter (by rw [hs]; rfl) (by rw [hs]; rfl)
  | notifyAll hs => exact h.wokenWorkers.enter (by rw [hs]; rfl) (by rw [hs]; rfl)
  | join hs _ => exact h.enter (by rw [hs]; rfl) (by rw [hs]; rfl)

theorem spurious (h : Books s) (hstep : Spurious s t) : Books t := by
  cases hstep with
  | worker _ hw => exact h.goto (by rw [hw]; rfl) (by rw [hw]; rfl) (by rw [hw]; rfl)
  | caller _ => exact h.enter (by rw [stageOf_woken]) (by rw [stageOf_woken])

theorem step (h : Books s) (hstep : Step s t) : Books t := by
  cases hstep with
  | worker w _ hw => exact h.worker hw
  | caller hc => exact h.caller hc

/-- The counters say how many jobs are on the stack or with a thread. -/
theorem pending_eq (h : Books s) :
    s.pending = UInt32.ofNat (s.queue.length + Multiset.card s.held) := by
  have hlength := congrArg Multiset.card h.asked
  simp only [Multiset.coe_card, Multiset.card_add, add_assoc] at hlength
  rw [State.pending, h.submitted, h.completed, hlength, ← add_assoc, UInt32.ofNat_add,
    add_sub_cancel_right]

/-- Nothing is pending of fewer than `2 ^ 32` jobs. -/
theorem drained (h : Books s) (hzero : s.pending = 0)
    (hlt : s.queue.length + Multiset.card s.held < 2 ^ 32) : s.queue = [] ∧ s.held = 0 := by
  rw [h.pending_eq] at hzero
  have hnat := congrArg UInt32.toNat hzero
  rw [UInt32.toNat_ofNat', Nat.mod_eq_of_lt hlt, UInt32.toNat_zero] at hnat
  exact ⟨List.length_eq_zero_iff.1 (by omega), Multiset.card_eq_zero.1 (by omega)⟩

/-- A caller that closes the pool as it should leaves no job on the stack. -/
theorem deinit_proper (h : Books s) (hproper : Call.Proper s .deinit) : s.queue = [] := by
  obtain ⟨hzero, hlt⟩ := hproper
  have hlength := congrArg Multiset.card h.asked
  simp only [Multiset.coe_card, Multiset.card_add] at hlength
  exact (h.drained hzero (by omega)).1

/-- Where there are no workers, a poll that is owed a job finds one on the stack. -/
theorem poll_finds (h : Books s) (hs : s.caller = .poll) (hworkers : IsEmpty W)
    (hdone : s.done = []) (howing : s.Owing) : s.queue ≠ [] := by
  intro hqueue
  have hasked := congrArg Multiset.card h.asked
  have hheld : s.held = 0 := by simp [State.held, hs, Caller.stageOf]
  rw [hheld, hqueue, hdone] at hasked
  simp only [Multiset.coe_card, Multiset.coe_nil, add_zero, zero_add] at hasked
  exact absurd howing (by rw [State.Owing]; omega)

end Books

theorem Reachable.books {R : State W J → Call J → Prop} (h : Reachable R s) : Books s := by
  induction h with
  | init => exact books_init
  | call _ hidle _ hcall ih => exact ih.call hidle hcall
  | step _ hstep ih => exact ih.step hstep
  | spurious _ hstep ih => exact ih.spurious hstep

end Books

end Spn.Pool
