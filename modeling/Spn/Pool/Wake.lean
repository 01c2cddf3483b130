import Spn.Pool.Jobs

/-! # Who is awake

Where jobs are on the stack a worker is awake, or one is about to be notified. A caller that is
asleep has nothing to be woken for that a worker is not about to notify it of.
-/
namespace Spn.Pool

set_option linter.unusedSectionVars false

variable {W J : Type} {s t : State W J} {w : W}

/-- A worker that looks at the stack before it sleeps. -/
def Worker.Active : Worker J → Prop
  | .loop | .within _ => True
  | _ => False

/-- A worker is about to notify the caller. -/
def State.Notifying (s : State W J) : Prop := ∃ w, s.workers w = .within .notify

/-- What holds while the caller is where it is. -/
def Caller.Fine (s : State W J) : Caller J → Prop
  | .idle | .signalling | .stepWithin _ | .poll | .wait | .failed => s.shutdown = false
  | .pollAsleep => s.shutdown = false ∧ Nonempty W ∧ (s.done = [] ∨ s.Notifying)
  | .pollWithin _ => s.shutdown = false ∧ IsEmpty W
  | .waitAsleep => s.shutdown = false ∧ (s.completed ≠ s.submitted ∨ s.Notifying)
  | .closing => s.shutdown = true ∧ s.queue = []
  | .joining => s.shutdown = true ∧ s.queue = [] ∧ ∀ w, s.workers w ≠ .asleep
  | .closed => s.shutdown = true ∧ s.queue = [] ∧ ∀ w, s.workers w = .gone

structure Wake (s : State W J) : Prop where
  queued : s.queue ≠ [] → Nonempty W → s.caller = .signalling ∨ ∃ w, (s.workers w).Active
  leaving : ∀ w, s.workers w = .leaving ∨ s.workers w = .gone → s.shutdown = true
  caller : s.caller.Fine s

theorem wake_init : Wake (State.init : State W J) where
  queued h := absurd rfl h
  leaving _ h := by
    obtain h | h := h <;> cases h
  caller := rfl

/-- The pool is not being closed, or its stack is empty. -/
theorem Caller.Fine.shutdown {c : Caller J} (h : c.Fine s) : s.shutdown = true → s.queue = [] := by
  intro hshutdown
  cases c with
  | closing => exact h.2
  | joining => exact h.2.1
  | closed => exact h.2.1
  | pollAsleep => exact absurd (h.1.symm.trans hshutdown) Bool.false_ne_true
  | pollWithin _ => exact absurd (h.1.symm.trans hshutdown) Bool.false_ne_true
  | waitAsleep => exact absurd (h.1.symm.trans hshutdown) Bool.false_ne_true
  | _ => exact absurd (h.symm.trans hshutdown) Bool.false_ne_true

variable [DecidableEq W]

/-- A caller that a worker may be about to notify. -/
def Caller.Asleep : Caller J → Prop
  | .pollAsleep | .waitAsleep => True
  | _ => False

/-- A worker goes on that was not about to notify the caller, if the caller is asleep. -/
theorem Caller.Fine.goto {c : Caller J} (h : c.Fine s) {pc : Worker J}
    (hnotify : c.Asleep → s.workers w ≠ .within .notify) (hgone : s.workers w ≠ .gone)
    (hasleep : pc = .asleep → s.shutdown = false) : c.Fine (s.goto w pc) := by
  have hnotifying : c.Asleep → s.Notifying → (s.goto w pc).Notifying := by
    rintro hc ⟨v, hv⟩
    have hvw : v ≠ w := by
      rintro rfl
      exact hnotify hc hv
    exact ⟨v, by rw [State.goto_workers, Function.update_of_ne hvw, hv]⟩
  cases c with
  | pollAsleep => exact ⟨h.1, h.2.1, h.2.2.imp_right (hnotifying trivial)⟩
  | waitAsleep => exact ⟨h.1, h.2.imp_right (hnotifying trivial)⟩
  | joining =>
    refine ⟨h.1, h.2.1, fun v => ?_⟩
    rw [State.goto_workers, Function.update_apply]
    split_ifs
    · intro hpc
      exact absurd ((hasleep hpc).symm.trans h.1) Bool.false_ne_true
    · exact h.2.2 v
  | closed => exact absurd (h.2.2 w) hgone
  | _ => exact h

theorem Caller.Fine.woken {c : Caller J} (h : c.Fine s) : c.woken.Fine s := by
  cases c with
  | pollAsleep => exact h.1
  | waitAsleep => exact h.1
  | _ => exact h

theorem Caller.woken_awake (c : Caller J) : ¬ c.woken.Asleep := by
  cases c <;> exact id

namespace Wake

theorem goto (h : Wake s) {pc : Worker J} (hnotify : s.caller.Asleep → s.workers w ≠ .within .notify)
    (hgone : s.workers w ≠ .gone) (hactive : pc.Active ∨ s.queue = [])
    (hasleep : pc = .asleep → s.shutdown = false)
    (hleaving : pc = .leaving ∨ pc = .gone → s.shutdown = true) : Wake (s.goto w pc) where
  queued hqueue _ :=
    .inr ⟨w, by
      rw [State.goto_workers, Function.update_self]
      exact hactive.resolve_right hqueue⟩
  leaving v hv := by
    rw [State.goto_workers, Function.update_apply] at hv
    split_ifs at hv
    · exact hleaving hv
    · exact h.leaving v hv
  caller := h.caller.goto hnotify hgone hasleep

theorem enter (h : Wake s) (pc : Caller J) (hpc : pc.Fine s) (hsignal : s.caller ≠ .signalling) :
    Wake (s.enter pc) where
  queued hqueue hworkers := .inr ((h.queued hqueue hworkers).resolve_left hsignal)
  leaving := h.leaving
  caller := by
    cases pc <;> exact hpc

/-- The stages of a thread that leave the caller alone. -/
theorem stage (h : Wake s) {stage : Stage J} {next : Option (Stage J)} (hnot : stage ≠ .notify)
    (hpush : ∀ job, stage ≠ .push job) (hstage : StageStep s stage t next) : Wake t := by
  cases hstage with
  | takeNone _ => exact h
  | @take queue job hqueue =>
    have hne : s.queue ≠ [] := by simp [hqueue]
    have hfine : ∀ c : Caller J, c.Fine s → c.Fine { s with queue := queue } := by
      intro c hc
      cases c with
      | closing => exact absurd hc.2 hne
      | joining => exact absurd hc.2.1 hne
      | closed => exact absurd hc.2.1 hne
      | _ => exact hc
    exact ⟨fun _ => h.queued hne, h.leaving, hfine s.caller h.caller⟩
  | run => exact ⟨h.queued, h.leaving, h.caller⟩
  | push => exact absurd rfl (hpush _)
  | notify => exact absurd rfl hnot

/-- A worker pushes a job that is done, and is about to notify the caller. -/
theorem push (h : Wake s) {job : J} (hw : s.workers w = .within (.push job)) :
    Wake ({ s with done := s.done ++ [job], completed := s.completed + 1 }.goto w
      (.within .notify)) where
  queued _ _ :=
    .inr ⟨w, by
      rw [State.goto_workers, Function.update_self]
      trivial⟩
  leaving v hv := by
    rw [State.goto_workers, Function.update_apply] at hv
    split_ifs at hv
    · obtain hv | hv := hv <;> cases hv
    · exact h.leaving v hv
  caller := by
    have hnotifying : ({ s with done := s.done ++ [job], completed := s.completed + 1 }.goto w
        (.within .notify)).Notifying := ⟨w, Function.update_self ..⟩
    have hfine : ∀ c : Caller J, c.Fine s →
        c.Fine ({ s with done := s.done ++ [job], completed := s.completed + 1 }.goto w
          (.within .notify)) := by
      intro c hc
      cases c with
      | pollAsleep => exact ⟨hc.1, hc.2.1, .inr hnotifying⟩
      | pollWithin _ => exact (hc.2.false w).elim
      | waitAsleep => exact ⟨hc.1, .inr hnotifying⟩
      | joining =>
        refine ⟨hc.1, hc.2.1, fun v => ?_⟩
        rw [State.goto_workers, Function.update_apply]
        split_ifs
        · intro hv
          cases hv
        · exact hc.2.2 v
      | closed => exact absurd (hw.symm.trans (hc.2.2 w)) (by simp)
      | _ => exact hc
    exact hfine s.caller h.caller

/-- The caller is notified. -/
theorem woken (h : Wake s) : Wake (s.enter s.caller.woken) where
  queued hqueue hworkers := by
    obtain hsignal | hactive := h.queued hqueue hworkers
    · left
      rw [State.enter_caller, hsignal]
      rfl
    · exact .inr hactive
  leaving := h.leaving
  caller := by
    have hfine := h.caller.woken
    rw [State.enter_caller]
    cases hc : s.caller <;> (rw [hc] at hfine; exact hfine)

theorem worker (h : Wake s) (hstep : WorkerStep w s t) : Wake t := by
  cases hstep with
  | sleep hw hshutdown hqueue =>
    exact h.goto (by simp [hw]) (by simp [hw]) (.inr hqueue) (fun _ => hshutdown) (by simp)
  | go hw hshutdown _ =>
    exact h.goto (by simp [hw]) (by simp [hw]) (.inl trivial) (by simp) (by simp)
  | leave hw hshutdown =>
    exact h.goto (by simp [hw]) (by simp [hw]) (.inr (h.caller.shutdown hshutdown)) (by simp)
      fun _ => hshutdown
  | exit hw =>
    have hshutdown := h.leaving w (.inl hw)
    have hexits : Wake { s with exits := s.exits + 1 } := ⟨h.queued, h.leaving, h.caller⟩
    exact hexits.goto (by simp [hw]) (by simp [hw]) (.inr (h.caller.shutdown hshutdown)) (by simp)
      fun _ => hshutdown
  | @stage stage t next hw hstage =>
    have hactive : (Worker.after next).Active := by
      cases next <;> trivial
    have hafter : Worker.after next ≠ .asleep ∧ Worker.after next ≠ .leaving ∧
        Worker.after next ≠ .gone := by
      cases next <;> simp [Worker.after]
    have hworkers := hstage.effect.workers
    by_cases hnotify : stage = .notify
    · subst hnotify
      cases hstage
      refine h.woken.goto (fun hasleep => absurd hasleep (Caller.woken_awake _)) ?_ (.inl hactive)
        (by simp [hafter]) (by simp [hafter])
      rw [State.enter_workers, hw]
      simp
    by_cases hpush : ∃ job, stage = .push job
    · obtain ⟨job, rfl⟩ := hpush
      cases hstage
      exact h.push hw
    · refine (h.stage hnotify (fun job heq => hpush ⟨job, heq⟩) hstage).goto ?_ ?_ (.inl hactive)
        (by simp [hafter]) (by simp [hafter])
      · intro _
        rw [hworkers, hw]
        simpa using hnotify
      · rw [hworkers, hw]
        simp

/-- A stage of the caller. -/
theorem callerStage (h : Wake s) {stage : Stage J} {next : Option (Stage J)}
    (hsignal : s.caller ≠ .signalling) (hstage : StageStep s stage t next) {pc : Caller J}
    (hpc : pc.Fine t) : Wake (t.enter pc) where
  queued hqueue hworkers := by
    have hold : s.queue ≠ [] := by
      cases hstage with
      | @take queue job h => simp [h]
      | _ => exact hqueue
    have hactive := (h.queued hold hworkers).resolve_left hsignal
    rw [← hstage.effect.workers] at hactive
    exact .inr hactive
  leaving w hw := by
    refine hstage.effect.shutdown.trans (h.leaving w ?_)
    rw [← hstage.effect.workers]
    exact hw
  caller := by
    cases pc <;> exact hpc

theorem callerStep (h : Wake s) (hstep : CallerStep s t) : Wake t := by
  have hcaller := h.caller
  cases hstep with
  | notifyNone hs hnone =>
    rw [hs] at hcaller
    refine ⟨fun _ hworkers => ?_, h.leaving, hcaller⟩
    obtain ⟨w⟩ := hworkers
    have hstays : s.workers w ≠ .leaving ∧ s.workers w ≠ .gone := by
      constructor <;> intro hw
      · exact absurd (hcaller.symm.trans (h.leaving w (.inl hw))) Bool.false_ne_true
      · exact absurd (hcaller.symm.trans (h.leaving w (.inr hw))) Bool.false_ne_true
    refine .inr ⟨w, ?_⟩
    rw [State.enter_workers]
    cases hw : s.workers w with
    | asleep => exact absurd hw (hnone w)
    | leaving => exact absurd hw hstays.1
    | gone => exact absurd hw hstays.2
    | _ => trivial
  | @notifyOne hs w hw =>
    rw [hs] at hcaller
    refine ⟨fun _ _ => .inr ⟨w, ?_⟩, fun v hv => ?_, hcaller⟩
    · rw [State.enter_workers, State.goto_workers, Function.update_self]
      trivial
    · rw [State.enter_workers, State.goto_workers, Function.update_apply] at hv
      split_ifs at hv
      · obtain hv | hv := hv <;> cases hv
      · exact h.leaving v hv
  | pollSleep hs hworkers hdone =>
    rw [hs] at hcaller
    exact h.enter .pollAsleep ⟨hcaller, hworkers, .inl hdone⟩ (by simp [hs])
  | pollTake hs hdone =>
    rw [hs] at hcaller
    exact ⟨fun hqueue hworkers => .inr ((h.queued hqueue hworkers).resolve_left (by simp [hs])),
      h.leaving, hcaller⟩
  | pollStep hs hworkers hdone hqueue =>
    rw [hs] at hcaller
    exact h.enter (.pollWithin .take) ⟨hcaller, hworkers⟩ (by simp [hs])
  | pollAssert hs hworkers hdone hqueue =>
    rw [hs] at hcaller
    exact h.enter .failed hcaller (by simp [hs])
  | @pollStage stage t next hs hstage =>
    rw [hs] at hcaller
    have hshutdown : t.shutdown = false := hstage.effect.shutdown.trans hcaller.1
    refine h.callerStage (by simp [hs]) hstage ?_
    cases next with
    | none => exact hshutdown
    | some _ => exact ⟨hshutdown, hcaller.2⟩
  | @stepStage stage t next hs hstage =>
    rw [hs] at hcaller
    have hshutdown : t.shutdown = false := hstage.effect.shutdown.trans hcaller
    refine h.callerStage (by simp [hs]) hstage ?_
    cases next <;> exact hshutdown
  | waitSleep hs hcount =>
    rw [hs] at hcaller
    exact h.enter .waitAsleep ⟨hcaller, .inl hcount⟩ (by simp [hs])
  | waitDone hs _ =>
    rw [hs] at hcaller
    exact h.enter .idle hcaller (by simp [hs])
  | notifyAll hs =>
    rw [hs] at hcaller
    refine ⟨fun hqueue => absurd hcaller.2 hqueue, fun w hw => ?_, hcaller.1, hcaller.2, fun w => ?_⟩
    · exact hcaller.1
    · change (s.workers w).woken ≠ .asleep
      cases s.workers w <;> simp [Worker.woken]
  | join hs hworkers =>
    rw [hs] at hcaller
    exact h.enter .closed ⟨hcaller.1, hcaller.2.1, hworkers⟩ (by simp [hs])

theorem call (h : Wake s) (hidle : s.caller = .idle) {call : Call J}
    (hcall : CallStep s call t) : Wake t := by
  have hcaller := h.caller
  rw [hidle] at hcaller
  have hsignal : s.caller ≠ .signalling := by simp [hidle]
  cases hcall with
  | submit job => exact ⟨fun _ _ => .inl rfl, h.leaving, hcaller⟩
  | poll => exact h.enter .poll hcaller hsignal
  | tryPollNone _ => exact h
  | tryPoll hdone =>
    refine ⟨h.queued, h.leaving, ?_⟩
    change Caller.Fine _ s.caller
    rw [hidle]
    exact hcaller
  | step => exact h.enter (.stepWithin .take) hcaller hsignal
  | wait => exact h.enter .wait hcaller hsignal
  | deinit hqueue => exact ⟨fun hne => absurd hqueue hne, fun _ _ => rfl, rfl, hqueue⟩
  | deinitAssert _ => exact h.enter .failed hcaller hsignal

theorem spurious (h : Wake s) (hstep : Spurious s t) : Wake t := by
  cases hstep with
  | worker _ hw => exact h.goto (by simp [hw]) (by simp [hw]) (.inl trivial) (by simp) (by simp)
  | caller _ => exact h.woken

theorem step (h : Wake s) (hstep : Step s t) : Wake t := by
  cases hstep with
  | worker w _ hw => exact h.worker hw
  | caller hc => exact h.callerStep hc

end Wake

theorem Reachable.wake {R : State W J → Call J → Prop} (h : Reachable R s) : Wake s := by
  induction h with
  | init => exact wake_init
  | call _ hidle _ hcall ih => exact ih.call hidle hcall
  | step _ hstep ih => exact ih.step hstep
  | spurious _ hstep ih => exact ih.spurious hstep

/-! ## What the caller sees to -/

/-- What a caller that calls as it should has seen to, where it is. -/
def Caller.Careful (s : State W J) : Caller J → Prop
  | .poll | .pollAsleep | .pollWithin _ => s.Owing
  | .wait => Nonempty W ∨ s.completed = s.submitted
  | .waitAsleep => Nonempty W
  | .failed => False
  | .idle | .signalling | .stepWithin _ | .closing | .joining | .closed => True

theorem Caller.Careful.woken {c : Caller J} (h : c.Careful s) : c.woken.Careful s := by
  cases c with
  | waitAsleep => exact .inl h
  | _ => exact h

/-- A worker takes nothing of that away: where there is one, a wait may go on. -/
theorem Caller.Careful.worker {c : Caller J} (h : c.Careful s) (w : W) (hasked : t.asked = s.asked)
    (hreturned : t.returned = s.returned) : c.Careful t := by
  have howing : s.Owing → t.Owing := by
    rw [State.Owing, State.Owing, hasked, hreturned]
    exact id
  cases c with
  | poll => exact howing h
  | pollAsleep => exact howing h
  | pollWithin _ => exact howing h
  | wait => exact .inl ⟨w⟩
  | _ => exact h

theorem WorkerStep.careful (hstep : WorkerStep w s t) (h : s.caller.Careful s) :
    t.caller.Careful t := by
  cases hstep with
  | sleep => exact h.worker w rfl rfl
  | go => exact h.worker w rfl rfl
  | leave => exact h.worker w rfl rfl
  | exit => exact h.worker w rfl rfl
  | @stage stage t next hw hstage =>
    have heffect := hstage.effect
    have hcaller : t.caller.Careful s := by
      obtain hsame | hwoken := heffect.caller
      · rw [hsame]
        exact h
      · rw [hwoken]
        exact h.woken
    exact hcaller.worker w heffect.asked heffect.returned

theorem CallerStep.careful [Fintype W] (hstep : CallerStep s t) (hbooks : Books s)
    (h : s.caller.Careful s) : t.caller.Careful t := by
  cases hstep with
  | pollSleep hs _ _ =>
    rw [hs] at h
    exact h
  | pollStep hs _ _ _ =>
    rw [hs] at h
    exact h
  | pollAssert hs hworkers hdone hqueue =>
    rw [hs] at h
    exact hbooks.poll_finds hs hworkers hdone h hqueue
  | @pollStage stage t next hs hstage =>
    rw [hs] at h
    have howing : t.Owing := by
      rw [State.Owing, hstage.effect.asked, hstage.effect.returned]
      exact h
    cases next <;> exact howing
  | @stepStage stage t next hs hstage => cases next <;> trivial
  | waitSleep hs hcount =>
    rw [hs] at h
    exact h.resolve_right hcount
  | notifyNone | notifyOne | pollTake | waitDone | notifyAll | join => trivial

theorem CallStep.careful [Fintype W] {call : Call J} (hstep : CallStep s call t)
    (hidle : s.caller = .idle) (hbooks : Books s) (hproper : call.Proper s) :
    t.caller.Careful t := by
  cases hstep with
  | poll => exact hproper
  | wait => exact hproper
  | deinitAssert hqueue => exact absurd (hbooks.deinit_proper hproper) hqueue
  | tryPollNone =>
    rw [hidle]
    trivial
  | tryPoll =>
    change Caller.Careful _ s.caller
    rw [hidle]
    trivial
  | submit | step | deinit => trivial

/-- A caller that calls as it should fails no assertion, and does not wait for what never comes. -/
theorem Reachable.careful [Fintype W] {R : State W J → Call J → Prop} (h : Reachable R s)
    (hR : ∀ s call, R s call → call.Proper s) : s.caller.Careful s := by
  induction h with
  | init => trivial
  | call hs hidle hallowed hcall _ => exact hcall.careful hidle hs.books (hR _ _ hallowed)
  | step hs hstep ih =>
    cases hstep with
    | worker w _ hw => exact hw.careful ih
    | caller hc => exact hc.careful hs.books ih
  | spurious _ hslip ih =>
    cases hslip with
    | @worker w _ _ => exact ih.worker w rfl rfl
    | caller _ => exact ih.woken

end Spn.Pool
