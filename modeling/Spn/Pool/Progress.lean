import Spn.Lib.Rank
import Spn.Pool.Wake

/-! # Calls return

No matter in which order the threads take their steps, a call that has begun returns: the steps that
can be taken are bounded, but for threads that wake up without a reason, and where none can be taken
the caller is not in a call, unless it has called what it should not have. By then the workers have
run every job.
-/
namespace Spn.Pool

open Spn.Lib.Rank

set_option linter.unusedSectionVars false

variable {W J : Type} {R : State W J → Call J → Prop} {s t : State W J} {w : W}
  {empty empty' : Bool}

/-! ## A rank -/

/-- What is left of a stage; a thread that finds the stack empty looks at it once more. -/
def Stage.rank (empty : Bool) : Stage J → ℕ
  | .take => if empty then 4 else 2
  | .run _ => 7
  | .push _ => 6
  | .notify => 5

def Worker.rank (empty : Bool) : Worker J → ℕ
  | .loop => 3
  | .asleep => 2
  | .within stage => stage.rank empty
  | .leaving => 1
  | .gone => 0

def Caller.rank (empty : Bool) (workers : ℕ) : Caller J → ℕ
  | .idle | .closed | .failed => 0
  | .joining => 1
  | .signalling | .pollAsleep | .waitAsleep => 2
  | .poll | .wait => 3
  | .pollWithin stage | .stepWithin stage => stage.rank empty
  | .closing => workers + 2

theorem Stage.rank_le (stage : Stage J) : stage.rank empty ≤ stage.rank empty' + 2 := by
  cases stage <;> cases empty <;> cases empty' <;> simp [Stage.rank]

theorem Worker.rank_le (worker : Worker J) : worker.rank empty ≤ worker.rank empty' + 2 := by
  cases worker with
  | within stage => exact stage.rank_le
  | _ => exact Nat.le_add_right _ 2

theorem Caller.rank_le (caller : Caller J) (workers : ℕ) :
    caller.rank empty workers ≤ caller.rank empty' workers + 2 := by
  cases caller with
  | pollWithin stage => exact stage.rank_le
  | stepWithin stage => exact stage.rank_le
  | _ => exact Nat.le_add_right _ 2

theorem Caller.rank_woken (caller : Caller J) (workers : ℕ) :
    caller.woken.rank empty workers ≤ caller.rank empty workers + 1 := by
  cases caller <;> simp [Caller.woken, Caller.rank]

theorem Worker.rank_woken (worker : Worker J) :
    worker.woken.rank empty ≤ worker.rank empty + 1 := by
  cases worker <;> simp [Worker.woken, Worker.rank]

variable [Fintype W]

/-- What is left for the workers to do. -/
def ranks (empty : Bool) (workers : W → Worker J) : ℕ := ∑ w, (workers w).rank empty

/-- How many steps can be taken before the caller or its callers begin something. A job on the
stack counts for the threads that find the stack empty when it is taken. -/
def State.rank (s : State W J) : ℕ :=
  (2 * Fintype.card W + 8) * s.queue.length + ranks s.queue.isEmpty s.workers +
    s.caller.rank s.queue.isEmpty (Fintype.card W)

theorem ranks_le (workers : W → Worker J) :
    ranks empty workers ≤ ranks empty' workers + 2 * Fintype.card W := by
  have hsum : ranks empty workers ≤ ∑ w, ((workers w).rank empty' + 2) :=
    Finset.sum_le_sum fun w _ => (workers w).rank_le
  rw [Finset.sum_add_distrib, Finset.sum_const, Finset.card_univ, smul_eq_mul, mul_comm] at hsum
  exact hsum

theorem ranks_woken (workers : W → Worker J) :
    ranks empty (fun w => (workers w).woken) ≤ ranks empty workers + Fintype.card W := by
  have hsum : ranks empty (fun w => (workers w).woken) ≤ ∑ w, ((workers w).rank empty + 1) :=
    Finset.sum_le_sum fun w _ => (workers w).rank_woken
  rw [Finset.sum_add_distrib, Finset.sum_const, Finset.card_univ, smul_eq_mul, mul_one] at hsum
  exact hsum

variable [DecidableEq W]

theorem ranks_goto (empty : Bool) (workers : W → Worker J) (w : W) (pc : Worker J) :
    ranks empty (Function.update workers w pc) + (workers w).rank empty =
      ranks empty workers + pc.rank empty :=
  sum_update workers w pc fun worker => worker.rank empty

theorem rank_goto (s : State W J) (w : W) (pc : Worker J) :
    (s.goto w pc).rank + (s.workers w).rank s.queue.isEmpty =
      s.rank + pc.rank s.queue.isEmpty := by
  have hsum := ranks_goto s.queue.isEmpty s.workers w pc
  change _ + ranks s.queue.isEmpty (Function.update s.workers w pc) + _ + _ = s.rank + _
  rw [State.rank]
  change _ * s.queue.length + _ + s.caller.rank s.queue.isEmpty _ + _ = _
  omega

theorem rank_enter (s : State W J) (pc : Caller J) :
    (s.enter pc).rank + s.caller.rank s.queue.isEmpty (Fintype.card W) =
      s.rank + pc.rank s.queue.isEmpty (Fintype.card W) := by
  rw [State.rank, State.rank]
  exact add_right_comm _ _ _

/-- What a stage does to the rank, apart from that of the thread. A thread that takes a job may
leave others with an empty stack. -/
theorem stage_rank {stage : Stage J} {next : Option (Stage J)} (h : StageStep s stage t next) :
    t.rank + next.elim 3 (Stage.rank t.queue.isEmpty) < s.rank + stage.rank t.queue.isEmpty := by
  cases h with
  | takeNone h => simp [Stage.rank, h]
  | @take queue job h =>
    have hranks : ranks queue.isEmpty s.workers ≤ ranks s.queue.isEmpty s.workers +
      2 * Fintype.card W := ranks_le s.workers
    have hcaller : s.caller.rank queue.isEmpty (Fintype.card W) ≤
      s.caller.rank s.queue.isEmpty (Fintype.card W) + 2 := s.caller.rank_le _
    have htake : 2 ≤ (Stage.take : Stage J).rank queue.isEmpty := by
      cases queue.isEmpty <;> simp [Stage.rank]
    have hlength : s.queue.length = queue.length + 1 := by rw [h, List.length_append]; rfl
    simp only [State.rank, Option.elim_some, Stage.rank, hlength, Nat.mul_succ] at *
    omega
  | run => exact Nat.add_lt_add_left (by simp [Stage.rank]) s.rank
  | push => exact Nat.add_lt_add_left (by simp [Stage.rank]) s.rank
  | notify =>
    have henter := rank_enter s s.caller.woken
    have hwoken : s.caller.woken.rank s.queue.isEmpty (Fintype.card W) ≤
      s.caller.rank s.queue.isEmpty (Fintype.card W) + 1 := s.caller.rank_woken _
    rw [Option.elim_none, Stage.rank]
    omega

theorem Worker.rank_after (next : Option (Stage J)) :
    (Worker.after next).rank empty = next.elim 3 (Stage.rank empty) := by
  cases next <;> rfl

theorem worker_rank (h : WorkerStep w s t) : t.rank < s.rank := by
  cases h with
  | sleep hw _ _ =>
    have hgoto := rank_goto s w .asleep
    simp only [hw, Worker.rank] at hgoto
    omega
  | go hw _ hqueue =>
    have hgoto := rank_goto s w (.within .take)
    have hempty : s.queue.isEmpty = false := List.isEmpty_eq_false_iff.2 hqueue
    simp only [hw, Worker.rank, Stage.rank, hempty] at hgoto
    simp only [Bool.false_eq_true, if_false] at hgoto
    omega
  | leave hw _ =>
    have hgoto := rank_goto s w .leaving
    simp only [hw, Worker.rank] at hgoto
    omega
  | exit hw =>
    have hgoto := rank_goto { s with exits := s.exits + 1 } w .gone
    simp only [hw, Worker.rank] at hgoto
    change _ + 1 = s.rank + 0 at hgoto
    omega
  | @stage stage t next hw hstage =>
    have hgoto := rank_goto t w (.after next)
    rw [hstage.effect.workers, hw, Worker.rank_after] at hgoto
    have hrank := stage_rank hstage
    change _ + stage.rank t.queue.isEmpty = _ at hgoto
    omega

theorem enter_rank {pc : Caller J}
    (h : pc.rank s.queue.isEmpty (Fintype.card W) <
      s.caller.rank s.queue.isEmpty (Fintype.card W)) : (s.enter pc).rank < s.rank := by
  have henter := rank_enter s pc
  omega

/-- A stage of the caller, who is in it after the stage as a poll is, or less. -/
theorem callerStage_rank {stage : Stage J} {next : Option (Stage J)} {pc : Caller J}
    (hs : s.caller = .pollWithin stage ∨ s.caller = .stepWithin stage)
    (hstage : StageStep s stage t next)
    (hpc : pc.rank t.queue.isEmpty (Fintype.card W) ≤ next.elim 3 (Stage.rank t.queue.isEmpty)) :
    (t.enter pc).rank < s.rank := by
  have hcaller : t.caller.rank t.queue.isEmpty (Fintype.card W) = stage.rank t.queue.isEmpty := by
    obtain hsame | hwoken := hstage.effect.caller
    · obtain hs | hs := hs <;> simp [hsame, hs, Caller.rank]
    · obtain hs | hs := hs <;> simp [hwoken, hs, Caller.woken, Caller.rank]
  have hrank := stage_rank hstage
  have henter := rank_enter t pc
  rw [hcaller] at henter
  omega

theorem caller_rank (h : CallerStep s t) : t.rank < s.rank := by
  cases h with
  | notifyNone hs _ => exact enter_rank (by simp [hs, Caller.rank])
  | @notifyOne hs w hw =>
    have hgoto := rank_goto s w .loop
    have henter := rank_enter (s.goto w .loop) .idle
    simp only [hs, hw, State.goto_caller, Caller.rank, Worker.rank] at henter hgoto
    omega
  | pollSleep hs _ _ => exact enter_rank (by simp [hs, Caller.rank])
  | pollTake hs _ =>
    have henter : (s.enter .idle).rank < s.rank := enter_rank (by simp [hs, Caller.rank])
    exact henter
  | pollStep hs _ _ hqueue =>
    have hempty : s.queue.isEmpty = false := List.isEmpty_eq_false_iff.2 hqueue
    exact enter_rank (by simp [hs, Caller.rank, Stage.rank, hempty])
  | pollAssert hs _ _ _ => exact enter_rank (by simp [hs, Caller.rank])
  | @pollStage stage t next hs hstage =>
    refine callerStage_rank (.inl hs) hstage ?_
    cases next <;> exact le_rfl
  | @stepStage stage t next hs hstage =>
    refine callerStage_rank (.inr hs) hstage ?_
    cases next with
    | none => exact Nat.zero_le 3
    | some stage => exact le_rfl
  | waitSleep hs _ => exact enter_rank (by simp [hs, Caller.rank])
  | waitDone hs _ => exact enter_rank (by simp [hs, Caller.rank])
  | notifyAll hs =>
    have hwoken : ranks s.queue.isEmpty (fun w => (s.workers w).woken) ≤
      ranks s.queue.isEmpty s.workers + Fintype.card W := ranks_woken s.workers
    change _ * s.queue.length + ranks s.queue.isEmpty (fun w => (s.workers w).woken) + 1 < _
    rw [State.rank, hs, Caller.rank]
    omega
  | join hs _ => exact enter_rank (by simp [hs, Caller.rank])

theorem spurious_rank (h : Spurious s t) : t.rank ≤ s.rank + 1 := by
  cases h with
  | @worker w _ hw =>
    have hgoto := rank_goto s w .loop
    simp only [hw, Worker.rank] at hgoto
    omega
  | caller _ =>
    have henter := rank_enter s s.caller.woken
    have hwoken : s.caller.woken.rank s.queue.isEmpty (Fintype.card W) ≤
      s.caller.rank s.queue.isEmpty (Fintype.card W) + 1 := s.caller.rank_woken _
    omega

theorem ranked : Ranked Step Spurious (Reachable R) State.rank 1 where
  step s t hs hstep := by
    refine ⟨hs.step hstep, ?_⟩
    cases hstep with
    | worker w _ hw => exact worker_rank hw
    | caller hc => exact caller_rank hc
  slip s t hs hslip := ⟨hs.spurious hslip, spurious_rank hslip⟩

/-! ## Where no step can be taken -/

/-- A thread at a stage can always take it. -/
theorem stage_exists (s : State W J) (stage : Stage J) : ∃ t next, StageStep s stage t next := by
  cases stage with
  | take =>
    obtain hqueue | ⟨queue, job, hqueue⟩ := List.eq_nil_or_concat s.queue
    · exact ⟨_, _, .takeNone hqueue⟩
    · exact ⟨_, _, .take (List.concat_eq_append ▸ hqueue)⟩
  | run job => exact ⟨_, _, .run⟩
  | push job => exact ⟨_, _, .push⟩
  | notify => exact ⟨_, _, .notify⟩

/-- No step can be taken. -/
def State.Stuck (s : State W J) : Prop := ∀ t, ¬ Step s t

theorem stuck_worker (h : s.Stuck) (hup : s.caller ≠ .failed) (w : W) :
    s.workers w = .asleep ∨ s.workers w = .gone := by
  cases hw : s.workers w with
  | loop =>
    cases hshutdown : s.shutdown with
    | true => exact absurd (.worker w hup (.leave hw hshutdown)) (h _)
    | false =>
      by_cases hqueue : s.queue = []
      · exact absurd (.worker w hup (.sleep hw hshutdown hqueue)) (h _)
      · exact absurd (.worker w hup (.go hw hshutdown hqueue)) (h _)
  | asleep => exact .inl rfl
  | within stage =>
    obtain ⟨t, next, hstage⟩ := stage_exists s stage
    exact absurd (.worker w hup (.stage hw hstage)) (h _)
  | leaving => exact absurd (.worker w hup (.exit hw)) (h _)
  | gone => exact .inr rfl

/-- Where the workers are asleep and the caller is not in a call, no step can be taken. -/
theorem stuck_of_asleep (hidle : s.caller = .idle) (hasleep : ∀ w, s.workers w = .asleep) :
    s.Stuck := by
  intro t hstep
  cases hstep with
  | worker w _ hw =>
    cases hw with
    | sleep h | go h | leave h | exit h | stage h => exact absurd (h.symm.trans (hasleep w)) (by simp)
  | caller hc =>
    cases hc with
    | notifyNone h | notifyOne h | pollSleep h | pollTake h | pollStep h | pollAssert h
    | pollStage h | stepStage h | waitSleep h | waitDone h | notifyAll h | join h =>
      exact absurd (h.symm.trans hidle) (by simp)

/-- Where all workers are asleep or gone, nobody holds a job the caller does not. -/
theorem stuck_held (h : s.Stuck) (hup : s.caller ≠ .failed)
    (hcaller : heldOf s.caller.stageOf = 0) : s.held = 0 := by
  rw [State.held, hcaller, add_zero]
  refine Finset.sum_eq_zero fun w _ => ?_
  obtain hw | hw := stuck_worker h hup w <;> rw [hw] <;> rfl

/-- The stack is empty where workers sleep, but for the caller's notification. -/
theorem stuck_queue (hs : Reachable R s) (h : s.Stuck) (hup : s.caller ≠ .failed)
    (hworkers : Nonempty W) (hsignal : s.caller ≠ .signalling) : s.queue = [] := by
  by_contra hqueue
  obtain hcaller | ⟨w, hactive⟩ := hs.wake.queued hqueue hworkers
  · exact hsignal hcaller
  · obtain hw | hw := stuck_worker h hup w <;> rw [hw] at hactive <;> exact hactive

/-- Then the jobs that are not returned are done. -/
theorem stuck_jobs (hs : Reachable R s) (h : s.Stuck) (hup : s.caller ≠ .failed)
    (hworkers : Nonempty W) (hsignal : s.caller ≠ .signalling)
    (hcaller : heldOf s.caller.stageOf = 0) : (s.asked : Multiset J) = s.done + s.returned := by
  rw [hs.books.asked, stuck_queue hs h hup hworkers hsignal, stuck_held h hup hcaller]
  simp

/-- The call under way has returned. -/
def State.Returned (s : State W J) : Prop := s.caller = .idle ∨ s.caller = .closed

/-- What comes of a call that should not have been made: an assertion has failed, a poll waits
although every job was returned, or a wait waits for jobs that nobody runs. -/
inductive State.Misused (s : State W J) : Prop
  | assertion (h : s.caller = .failed)
  | poll (h : s.caller = .pollAsleep) (hworkers : Nonempty W) (hall : ¬ s.Owing)
  | wait (h : s.caller = .waitAsleep) (hworkers : IsEmpty W) (hcount : s.completed ≠ s.submitted)

/-- A caller that calls as it should is not among them. -/
theorem State.Misused.not_careful (h : s.Misused) : ¬ s.caller.Careful s := by
  cases h with
  | assertion hc =>
    rw [hc]
    exact id
  | poll hc _ hall =>
    rw [hc]
    exact hall
  | wait hc hworkers _ =>
    rw [hc]
    exact not_nonempty_iff.2 hworkers

theorem stuck_caller (hs : Reachable R s) (h : s.Stuck) : s.Returned ∨ s.Misused := by
  have hfine := hs.wake.caller
  by_cases hup : s.caller = .failed
  · exact .inr (.assertion hup)
  have hnotify : ¬ s.Notifying := by
    rintro ⟨w, hw⟩
    obtain hw' | hw' := stuck_worker h hup w <;> exact absurd (hw.symm.trans hw') (by simp)
  cases hc : s.caller with
  | idle => exact .inl (.inl hc)
  | closed => exact .inl (.inr hc)
  | signalling =>
    by_cases hasleep : ∃ w, s.workers w = .asleep
    · obtain ⟨w, hw⟩ := hasleep
      exact absurd (.caller (.notifyOne hc hw)) (h _)
    · exact absurd (.caller (.notifyNone hc fun w hw => hasleep ⟨w, hw⟩)) (h _)
  | poll =>
    obtain hdone | ⟨done, job, hdone⟩ := List.eq_nil_or_concat s.done
    · obtain hnone | hsome := isEmpty_or_nonempty W
      · by_cases hqueue : s.queue = []
        · exact absurd (.caller (.pollAssert hc hnone hdone hqueue)) (h _)
        · exact absurd (.caller (.pollStep hc hnone hdone hqueue)) (h _)
      · exact absurd (.caller (.pollSleep hc hsome hdone)) (h _)
    · rw [List.concat_eq_append] at hdone
      exact absurd (.caller (.pollTake hc hdone)) (h _)
  | pollAsleep =>
    rw [hc] at hfine
    obtain ⟨-, hworkers, hdone⟩ := hfine
    have hjobs := stuck_jobs hs h hup hworkers (by simp [hc]) (by simp [hc, Caller.stageOf])
    rw [hdone.resolve_right hnotify] at hjobs
    have hlength := congrArg Multiset.card hjobs
    simp only [Multiset.coe_nil, zero_add, Multiset.coe_card] at hlength
    exact .inr (.poll hc hworkers (by rw [State.Owing]; omega))
  | pollWithin stage =>
    obtain ⟨t, next, hstage⟩ := stage_exists s stage
    exact absurd (.caller (.pollStage hc hstage)) (h _)
  | stepWithin stage =>
    obtain ⟨t, next, hstage⟩ := stage_exists s stage
    exact absurd (.caller (.stepStage hc hstage)) (h _)
  | wait =>
    by_cases hcount : s.completed = s.submitted
    · exact absurd (.caller (.waitDone hc hcount)) (h _)
    · exact absurd (.caller (.waitSleep hc hcount)) (h _)
  | waitAsleep =>
    rw [hc] at hfine
    have hcount := hfine.2.resolve_right hnotify
    obtain hnone | hworkers := isEmpty_or_nonempty W
    · exact .inr (.wait hc hnone hcount)
    have hjobs := stuck_jobs hs h hup hworkers (by simp [hc]) (by simp [hc, Caller.stageOf])
    have hlength := congrArg Multiset.card hjobs
    simp only [Multiset.coe_card, Multiset.card_add] at hlength
    refine absurd ?_ hcount
    rw [hs.books.submitted, hs.books.completed, hlength]
  | closing => exact absurd (.caller (.notifyAll hc)) (h _)
  | joining =>
    rw [hc] at hfine
    have hgone : ∀ w, s.workers w = .gone := fun w =>
      (stuck_worker h hup w).resolve_left (hfine.2.2 w)
    exact absurd (.caller (.join hc hgone)) (h _)
  | failed => exact absurd hc hup

/-- Then the workers, if there are any, have run every job. -/
theorem stuck_ran (hs : Reachable R s) (h : s.Stuck) (hreturned : s.Returned)
    (hworkers : Nonempty W) : s.queue = [] ∧ (s.ran : Multiset J) = s.asked := by
  have hup : s.caller ≠ .failed := by
    obtain hc | hc := hreturned <;> simp [hc]
  have hsignal : s.caller ≠ .signalling := by
    obtain hc | hc := hreturned <;> simp [hc]
  have hstage : s.caller.stageOf = none := by
    obtain hc | hc := hreturned <;> rw [hc] <;> rfl
  have hfinished : s.finished = 0 := by
    rw [State.finished, hstage, finishedOf_none, add_zero]
    refine Finset.sum_eq_zero fun w _ => ?_
    obtain hw | hw := stuck_worker h hup w <;> rw [hw] <;> rfl
  refine ⟨stuck_queue hs h hup hworkers hsignal, ?_⟩
  rw [hs.books.ran, hfinished, zero_add,
    stuck_jobs hs h hup hworkers hsignal (by rw [hstage, heldOf_none])]

/-- Whatever the order of the steps, there are only so many until the caller begins another call,
besides those of threads that wake up for no reason; and when no step is left, the call that was
under way has returned, and the workers, if there are any, have run every job. It is otherwise only
where the call should not have been made, and a caller that calls as it should makes none of
those. -/
theorem calls_return (h : Reachable R s) {steps slips : ℕ}
    (hrun : Run Step Spurious s steps slips t) :
    steps + t.rank ≤ s.rank + slips ∧
      (∃ more u, Run Step Spurious s (steps + more) slips u ∧ u.Stuck) ∧
      (t.Stuck → t.Returned ∧ (Nonempty W → t.queue = [] ∧ (t.ran : Multiset J) = t.asked) ∨
        t.Misused) ∧
      ((∀ s call, R s call → call.Proper s) → ¬ t.Misused) := by
  obtain ⟨ht, hle⟩ := hrun.bounded ranked h
  refine ⟨by omega, hrun.ends ranked h, fun hstuck => ?_, fun hR hmisused => ?_⟩
  · exact (stuck_caller ht hstuck).imp_left fun hreturned =>
      ⟨hreturned, stuck_ran ht hstuck hreturned⟩
  · exact hmisused.not_careful (ht.careful hR)

/-- A pool of one worker that one job was submitted to. -/
def single (worker : Worker ℕ) (caller : Caller ℕ) (queue ran done : List ℕ) :
    State (Fin 1) ℕ where
  queue := queue
  done := done
  submitted := 1
  completed := UInt32.ofNat done.length
  shutdown := false
  workers _ := worker
  caller := caller
  asked := [7]
  ran := ran
  returned := []
  exits := 0

theorem goto_one (s : State (Fin 1) ℕ) (pc : Worker ℕ) :
    s.goto 0 pc = { s with workers := fun _ => pc } := by
  rw [State.goto]
  congr
  funext w
  rw [Subsingleton.elim w 0, Function.update_self]

theorem single_step {s t : State (Fin 1) ℕ} {pc : Worker ℕ} (hup : s.caller ≠ .failed)
    (h : WorkerStep 0 s (t.goto 0 pc)) : Step s { t with workers := fun _ => pc } :=
  goto_one t pc ▸ .worker 0 hup h

/-- The worker is asleep when the job is submitted, and is notified of it. -/
theorem single_reachable : Reachable Call.Proper (single .loop .wait [7] [] []) := by
  have hinit : Reachable Call.Proper (State.init : State (Fin 1) ℕ) := .init
  have hasleep := hinit.step (single_step (by decide) (.sleep rfl rfl rfl))
  have hsubmit : Reachable Call.Proper (single .asleep .signalling [7] [] []) :=
    hasleep.call rfl (show Call.Proper _ (.submit 7) from trivial) (.submit 7)
  have hnotified := hsubmit.step (.caller (.notifyOne rfl (w := 0) rfl))
  rw [goto_one] at hnotified
  exact hnotified.call rfl (show Call.Proper _ .wait from .inl ⟨0⟩) .wait

/-- The caller waits, the worker runs the job and wakes the caller, and sleeps again. -/
theorem single_run : Run Step Spurious (single .loop .wait [7] [] []) 8 0
    (single .asleep .idle [] [7] [7]) := by
  have hsleep : Step (single .loop .wait [7] [] []) (single .loop .waitAsleep [7] [] []) :=
    .caller (.waitSleep rfl (by decide))
  have hgo : Step (single .loop .waitAsleep [7] [] [])
      (single (.within .take) .waitAsleep [7] [] []) :=
    single_step (by decide) (.go rfl rfl (by simp [single]))
  have htake : Step (single (.within .take) .waitAsleep [7] [] [])
      (single (.within (.run 7)) .waitAsleep [] [] []) :=
    single_step (by decide) (.stage rfl (@StageStep.take _ _ _ [] 7 rfl))
  have hjob : Step (single (.within (.run 7)) .waitAsleep [] [] [])
      (single (.within (.push 7)) .waitAsleep [] [7] []) :=
    single_step (by decide) (.stage rfl .run)
  have hpush : Step (single (.within (.push 7)) .waitAsleep [] [7] [])
      (single (.within .notify) .waitAsleep [] [7] [7]) :=
    single_step (by decide) (.stage rfl .push)
  have hnotify : Step (single (.within .notify) .waitAsleep [] [7] [7])
      (single .loop .wait [] [7] [7]) :=
    single_step (by decide) (.stage rfl .notify)
  have hdone : Step (single .loop .wait [] [7] [7]) (single .loop .idle [] [7] [7]) :=
    .caller (.waitDone rfl rfl)
  have hagain : Step (single .loop .idle [] [7] [7]) (single .asleep .idle [] [7] [7]) :=
    single_step (by decide) (.sleep rfl rfl rfl)
  exact .step (.step (.step (.step (.step (.step (.step (.step .start hsleep) hgo) htake) hjob)
    hpush) hnotify) hdone) hagain

theorem single_returns : (single .asleep .idle [] [7] [7]).Returned ∧
    ((single .asleep .idle [] [7] [7]).ran : Multiset ℕ) = {7} := by
  obtain ⟨-, -, hstuck, hproper⟩ := calls_return single_reachable single_run
  obtain ⟨hreturned, hran⟩ := (hstuck (stuck_of_asleep rfl fun _ => rfl)).resolve_right
    (hproper fun _ _ => id)
  exact ⟨hreturned, (hran ⟨0⟩).2⟩

/-! ## What has become of the jobs -/

theorem finished_le_held (s : State W J) : s.finished ≤ s.held := by
  have hstage : ∀ stage : Option (Stage J), finishedOf stage ≤ heldOf stage := by
    rintro (- | - | - | - | -) <;> simp [finishedOf, heldOf, Stage.finished, Stage.held]
  exact add_le_add (Finset.sum_le_sum fun w _ => hstage _) (hstage _)

/-- Where nothing is on the stack or with a thread, every job has run. -/
theorem ran_of_drained (h : Books s) (hqueue : s.queue = []) (hheld : s.held = 0) :
    (s.ran : Multiset J) = s.asked := by
  have hfinished : s.finished = 0 := le_antisymm (hheld ▸ finished_le_held s) (Multiset.zero_le _)
  rw [h.ran, h.asked, hqueue, hheld, hfinished]
  simp

/-- Each job that was submitted is on the stack, with a thread, done or returned, in one place only,
and has run once or is still to run. Where nothing is pending, or the pool is closed, every job has
run, and after the end each worker has called `on_worker_exit`. Where the caller calls as it should
no assertion fails. -/
theorem jobs_accounted (h : Reachable R s) :
    (s.asked : Multiset J) = s.queue + s.held + s.done + s.returned ∧
      (s.ran : Multiset J) = s.finished + s.done + s.returned ∧ s.finished ≤ s.held ∧
      s.pending = UInt32.ofNat (s.queue.length + Multiset.card s.held) ∧
      (s.pending = 0 → s.queue.length + Multiset.card s.held < 2 ^ 32 →
        s.queue = [] ∧ (s.ran : Multiset J) = s.asked) ∧
      (s.caller = .closed → (s.ran : Multiset J) = s.asked ∧ s.exits = Fintype.card W) ∧
      ((∀ s call, R s call → call.Proper s) → s.caller ≠ .failed) := by
  have hbooks := h.books
  refine ⟨hbooks.asked, hbooks.ran, finished_le_held s, hbooks.pending_eq, ?_, ?_, ?_⟩
  · intro hzero hlt
    obtain ⟨hqueue, hheld⟩ := hbooks.drained hzero hlt
    exact ⟨hqueue, ran_of_drained hbooks hqueue hheld⟩
  · intro hc
    have hfine := h.wake.caller
    rw [hc] at hfine
    obtain ⟨-, hqueue, hgone⟩ := hfine
    have hheld : s.held = 0 := by simp [State.held, hc, hgone, Caller.stageOf, Worker.stageOf]
    refine ⟨ran_of_drained hbooks hqueue hheld, ?_⟩
    rw [hbooks.exits]
    simp [State.left, hgone, Worker.isGone]
  · intro hR hc
    exact (State.Misused.assertion hc).not_careful (h.careful hR)

def singleClosed : State (Fin 1) ℕ :=
  { single .gone .closed [] [7] [7] with shutdown := true, exits := 1 }

/-- After the wait the pool is closed, of which the worker is notified. -/
theorem singleClosed_reachable : Reachable Call.Proper singleClosed := by
  have hidle := (single_run.bounded ranked single_reachable).1
  have hclosing := hidle.call rfl (show Call.Proper _ .deinit from ⟨by decide, by decide⟩)
    (.deinit rfl)
  have hjoining := hclosing.step (.caller (.notifyAll rfl))
  have hleaving := hjoining.step (single_step (by decide) (.leave rfl rfl))
  have hgone := hleaving.step (single_step (by decide) (.exit rfl))
  exact hgone.step (.caller (.join rfl fun _ => rfl))

theorem singleClosed_accounted : (singleClosed.ran : Multiset ℕ) = singleClosed.asked ∧
    singleClosed.exits = 1 ∧ singleClosed.caller ≠ .failed := by
  obtain ⟨-, -, -, -, -, hclosed, hproper⟩ := jobs_accounted singleClosed_reachable
  exact ⟨(hclosed rfl).1, (hclosed rfl).2, hproper fun _ _ => id⟩

/-- A pool that is closed while a job is on its stack fails. -/
example : ∃ s : State (Fin 1) ℕ, Reachable (fun _ _ => True) s ∧ s.caller = .failed :=
  ⟨_, (((Reachable.init.call rfl trivial (.submit 7)).step
    (.caller (.notifyNone rfl (by decide)))).call rfl trivial (.deinitAssert (by decide))),
    rfl⟩

end Spn.Pool
