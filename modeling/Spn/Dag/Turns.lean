import Spn.Dag.Bookkeeping

/-! # The bound on turns

Every action carries a weight of four for each action that has not finished
yet, plus an offset for the place it is in. A turn moves one action to a place
of smaller offset. An attempt that may be requeued, because some action has
finished since it loaded the epoch, has an offset of four and comes back on the
ready stack with three; finishing an action pays for the offsets it raises with
the four it takes off every weight. So each turn lowers the potential, and no
other event raises it.
-/
namespace Spn.Dag

open Spn.Lib Function

/-- One for every event but the writes of `settle`. -/
def Event.steps {W : Type} : Event W → ℕ
  | .write _ _ => 0
  | _ => 1

/-- Steps a job still takes before it is handed back. -/
def Phase.left : Phase → ℕ
  | .queued => 5
  | .looking => 4
  | .looked => 3
  | .settling => 2
  | .executing => 1
  | .finished => 0

/-- Steps until the main thread is back at its loop. -/
def Main.left : Main → ℕ
  | .commit _ => 2
  | .settle _ => 1
  | _ => 0

/-- One until the loop is over. -/
def Main.alive : Main → ℕ
  | .exited | .aborted _ => 0
  | _ => 1

theorem Main.alive_le (m : Main) : m.alive ≤ 1 := by
  cases m <;> simp [Main.alive]

/-- A sum over the actions in which one term changes. -/
theorem sum_range_le {n k c d : ℕ} (hk : k < n) {f h : ℕ → ℕ}
    (hle : ∀ j, f j + (if j = k then c else 0) ≤ h j + if j = k then d else 0) :
    ∑ j ∈ Finset.range n, f j + c ≤ ∑ j ∈ Finset.range n, h j + d := by
  have hmem : k ∈ Finset.range n := Finset.mem_range.mpr hk
  have hsum := Finset.sum_le_sum fun j (_ : j ∈ Finset.range n) => hle j
  simpa only [Finset.sum_add_distrib, Finset.sum_ite_eq', hmem, if_true] using hsum

namespace Run

variable {g : Graph} {env : Env} {r s : Run} {k : ℕ} {W : Type}
variable {hash : List UInt8 → Digest}

/-! ## Weights -/

/-- Some action has finished since the attempt loaded the epoch. -/
def stale (r : Run) (k : ℕ) : Bool :=
  decide (r.phase k ≠ .queued) && decide ((r.flight k).epoch < r.completed)

/-- What an action in flight adds to its weight. -/
def jobOffset (r : Run) (k : ℕ) : ℕ := bif r.stale k then 4 else 2

/-- What the place of an action adds to its weight. -/
def offset (r : Run) (k : ℕ) : ℕ :=
  3 * r.ready.count k + r.jobs.count k * r.jobOffset k + r.main.token k

def weight (g : Graph) (r : Run) (k : ℕ) : ℕ :=
  bif r.done k then 0 else 4 * (g.actions.length - r.completed) + r.offset k

/-- What the turns of the rest of a run are paid from. -/
def potential (g : Graph) (r : Run) : ℕ :=
  ∑ k ∈ Finset.range g.actions.length, weight g r k + r.main.alive

theorem jobOffset_le (r : Run) (k : ℕ) : r.jobOffset k ≤ 4 := by
  unfold jobOffset
  cases r.stale k <;> simp

theorem le_jobOffset (r : Run) (k : ℕ) : 2 ≤ r.jobOffset k := by
  unfold jobOffset
  cases r.stale k <;> simp

/-- An action holds one token, so it has one offset. -/
theorem offset_le (h : r.tokens k ≤ 1) : r.offset k ≤ 4 := by
  have hj := r.jobOffset_le k
  unfold tokens at h
  unfold offset
  rcases Nat.eq_zero_or_pos (r.jobs.count k) with hz | hpos
  · rw [hz]
    omega
  · have hone : r.jobs.count k = 1 := by omega
    rw [hone]
    omega

theorem offset_of_free (h : r.tokens k = 0) : r.offset k = 0 := by
  unfold tokens at h
  have hz : r.jobs.count k = 0 := by omega
  unfold offset
  rw [hz]
  omega

/-- Steps that move no action keep every weight. -/
theorem weight_congr (hdone : s.done = r.done) (hc : s.completed = r.completed)
    (hready : s.ready = r.ready) (hjobs : s.jobs = r.jobs) (hmain : s.main.action = r.main.action)
    (hstale : ∀ j ∈ r.jobs, s.stale j = r.stale j) (j : ℕ) : weight g s j = weight g r j := by
  have hoff : s.offset j = r.offset j := by
    simp only [offset, Main.token, hready, hjobs, hmain]
    by_cases hj : j ∈ r.jobs
    · simp only [jobOffset, hstale j hj]
    · rw [List.count_eq_zero.mpr hj, Nat.zero_mul, Nat.zero_mul]
  simp only [weight, hdone, hc, hoff]

theorem potential_congr (hdone : s.done = r.done) (hc : s.completed = r.completed)
    (hready : s.ready = r.ready) (hjobs : s.jobs = r.jobs) (hmain : s.main.action = r.main.action)
    (halive : s.main.alive = r.main.alive) (hstale : ∀ j ∈ r.jobs, s.stale j = r.stale j) :
    potential g s = potential g r := by
  unfold potential
  rw [halive, Finset.sum_congr rfl fun j _ =>
    weight_congr hdone hc hready hjobs hmain hstale j]

theorem Inv.completed_le (h : Inv g env r) : r.completed ≤ g.actions.length := by
  have hsub : ∀ k ∈ r.finished.map Prod.fst, k ∈ List.range g.actions.length := by
    intro k hk
    refine List.mem_range.mpr (h.tokens_lt k ?_)
    simp [tokens, (h.done_iff k).mpr hk]
  have hle := (h.nodup.subperm hsub).length_le
  rwa [List.length_map, List.length_range, ← h.completed_eq] at hle

/-- Finishing an action raises no weight: the four it takes off every weight
pay for the offsets it raises. -/
theorem weight_finishAction (hi : Inv g env (r.finishAction g k)) (j : ℕ) :
    weight g (r.finishAction g k) j ≤ bif update r.done k true j then 0 else
      4 * (g.actions.length - r.completed) := by
  have hc := hi.completed_le
  change r.completed + 1 ≤ g.actions.length at hc
  have hoff := offset_le (hi.tokens_le j)
  change (bif update r.done k true j then 0 else
    4 * (g.actions.length - (r.completed + 1)) + (r.finishAction g k).offset j) ≤ _
  cases update r.done k true j
  · simp only [cond_false]
    omega
  · exact Nat.le_refl 0

/-! ## The potential of a turn -/

/-- The weights when an action is popped from the ready stack. -/
theorem Inv.weight_pop (h : Inv g env r) {rest : List ℕ} (hr : r.ready = k :: rest) (j : ℕ) :
    weight g { r with ready := rest } j + (if j = k then 3 else 0) = weight g r j := by
  have hmem : k ∈ r.ready := by rw [hr]; exact List.mem_cons_self
  have hd := (ready_alone (h.tokens_le k) hmem).2.2.2.2.2
  by_cases hj : j = k
  · subst hj
    simp only [weight, offset, jobOffset, stale, hd, hr, List.count_cons_self, cond_false, if_true]
    omega
  · simp only [weight, offset, jobOffset, stale, hr, List.count_cons_of_ne (Ne.symm hj), if_neg hj]
    rfl

/-- The weights when a job is handed back. -/
theorem Inv.weight_take (h : Inv g env r) (hk : k ∈ r.jobs) (n j : ℕ) :
    weight g { r with jobs := r.jobs.erase k, inFlight := n } j
      + (if j = k then r.jobOffset k else 0) = weight g r j := by
  obtain ⟨-, hcount, -, -, -, hd⟩ := job_alone (h.tokens_le k) hk
  by_cases hj : j = k
  · subst hj
    simp only [weight, offset, jobOffset, stale, hd, List.count_erase_self, hcount, cond_false,
      if_true]
    omega
  · simp only [weight, offset, jobOffset, stale, List.count_erase_of_ne hj, if_neg hj]
    rfl

theorem stale_beginCommit (j : ℕ) : (r.beginCommit g env k).stale j = r.stale j := by
  unfold stale
  rw [beginCommit_epoch]
  obtain ⟨_, _, _, he⟩ := beginCommit_frame g env r k
  rw [he]

theorem weight_beginCommit (hm : r.main.action = none) (j : ℕ) :
    weight g (r.beginCommit g env k) j ≤ weight g r j + if j = k then 1 else 0 := by
  have hstale : (r.beginCommit g env k).stale j = r.stale j := stale_beginCommit j
  have hoff : (r.beginCommit g env k).offset j = r.offset j + if j = k then 1 else 0 := by
    have hact : (r.beginCommit g env k).main.action = some k := by rw [beginCommit_main]; rfl
    simp only [offset, jobOffset, hstale, Main.token_of_some hact, Main.token_of_none hm]
    obtain ⟨_, _, _, he⟩ := beginCommit_frame g env r k
    rw [he]
    rfl
  unfold weight
  rw [hoff]
  obtain ⟨_, _, _, he⟩ := beginCommit_frame g env r k
  rw [he]
  cases r.done j
  · simp only [cond_false]
    omega
  · simp only [cond_true]
    omega

theorem Popped.weight_submit (h : Popped g env r k) (j : ℕ) :
    weight g (r.submit k) j = weight g r j + if j = k then 2 else 0 := by
  by_cases hj : j = k
  · subst hj
    have hfree := offset_of_free h.free
    have hjobs := List.count_eq_zero.mpr h.zero.2.2.2
    have hoff : (r.submit j).offset j = r.offset j + 2 := by
      simp only [offset, hjobs, Nat.zero_mul] at hfree ⊢
      simp only [Run.submit, jobOffset, stale, List.count_cons_self, hjobs, update_self,
        ne_eq, not_true_eq_false, decide_false, Bool.false_and, cond_false]
      omega
    simp only [weight, hoff, if_true]
    rw [show (r.submit j).done j = false from h.zero.2.2.1, h.zero.2.2.1]
    rfl
  · simp only [weight, offset, jobOffset, stale, Run.submit, update_of_ne hj,
      List.count_cons_of_ne (Ne.symm hj), if_neg hj]
    rfl

/-- A dispatch puts the action somewhere with an offset of two at most. -/
theorem Popped.weight_dispatched (h : Popped g env r k) (hs : Dispatched g env r k s) (j : ℕ) :
    weight g s j ≤ weight g r j + if j = k then 2 else 0 := by
  cases hs with
  | stillParked => exact Nat.le_add_right _ _
  | deferred => exact Nat.le_add_right _ _
  | commit =>
    refine (weight_beginCommit (r := r.unpark k) h.idle j).trans ?_
    have hsame : weight g (r.unpark k) j = weight g r j := rfl
    rw [hsame]
    split <;> omega
  | submitted => exact (h.unpark.weight_submit j).le

/-- A completion puts the action somewhere with a smaller offset. A requeue
does since it needs a producer that finished after the attempt loaded the
epoch. -/
theorem Popped.weight_completed (h : Popped g env r k) (hph : r.phase k = .finished)
    (hi : Inv g env s) (hs : Completed g env r k s) (j : ℕ) :
    weight g s j + (if j = k then 1 else 0) ≤ weight g r j + if j = k then r.jobOffset k else 0 := by
  have htwo := r.le_jobOffset k
  have hsame {t : Run} (ht : weight g t j = weight g r j) :
      weight g t j + (if j = k then 1 else 0) ≤
        weight g r j + if j = k then r.jobOffset k else 0 := by
    rw [ht]
    split <;> omega
  cases hs with
  | failed => exact hsame rfl
  | parked => exact hsame rfl
  | hit =>
    have hw := weight_finishAction hi j
    have hc := hi.completed_le
    change r.completed + 1 ≤ _ at hc
    by_cases hj : j = k
    · subst hj
      rw [update_self, cond_true] at hw
      simp only [if_true]
      omega
    · rw [update_of_ne hj] at hw
      simp only [if_neg hj, Nat.add_zero]
      refine hw.trans ?_
      unfold weight
      cases r.done j
      · exact Nat.le_add_right _ _
      · exact Nat.le_refl 0
  | requeued _ _ hq =>
    obtain ⟨p, -, hp⟩ := List.any_eq_true.mp hq
    obtain ⟨-, hdone, hepoch, -⟩ := of_decide_eq_true hp
    have hlt : (r.flight k).epoch < r.completed := hepoch.trans_le (h.epoch_le p hdone)
    have hfour : r.jobOffset k = 4 := by simp [jobOffset, stale, hph, hlt]
    have hpush : weight g { r with ready := k :: r.ready } j ≤
        weight g r j + if j = k then 3 else 0 := by
      unfold weight
      cases r.done j
      · simp only [cond_false, offset, jobOffset, stale, List.count_cons, beq_iff_eq,
          eq_comm (a := k)]
        split <;> omega
      · exact Nat.zero_le _
    rw [hfour]
    split at hpush <;> rename_i hj
    · simp only [hj, if_true] at hpush ⊢
      omega
    · simpa only [hj, if_false, Nat.add_zero] using hpush
  | commit =>
    have hw : weight g (r.beginCommit g env k) j ≤ weight g r j + if j = k then 1 else 0 :=
      weight_beginCommit h.idle j
    split at hw <;> rename_i hj
    · simp only [hj, if_true] at hw ⊢
      omega
    · simpa only [hj, if_false, Nat.add_zero] using hw

/-- Leaving the loop spends the last turn. -/
theorem potential_leave (hl : r.main = .loop) {m : Main} (hm : m.action = none)
    (ha : m.alive = 0) : potential g { r with main := m } + 1 ≤ potential g r := by
  have hsame : ∀ j, weight g { r with main := m } j = weight g r j := by
    refine weight_congr rfl rfl rfl rfl ?_ fun _ _ => rfl
    rw [hl]
    exact hm
  unfold potential
  rw [Finset.sum_congr rfl fun j _ => hsame j, hl, ha]
  exact Nat.le_refl _

/-- The body of a turn lowers the potential. -/
theorem Inv.potential_turned (h : Inv g env r) (hl : r.main = .loop) (hi : Inv g env s)
    (hs : Turned g env r s) : potential g s + 1 ≤ potential g r := by
  have halive : r.main.alive = 1 := by rw [hl]; rfl
  have hle := s.main.alive_le
  cases hs with
  | @completed k s hk hph hc =>
    have hp := h.take hl hk
    have hsum := sum_range_le (n := g.actions.length) hp.lt (c := 1) (d := 0)
      (f := weight g s) (h := weight g r) fun j => by
        have hw := hp.weight_completed hph hi hc j
        have ht := h.weight_take hk (r.inFlight - 1) j
        have hjob : ({ r with jobs := r.jobs.erase k, inFlight := r.inFlight - 1 } :
          Run).jobOffset k = r.jobOffset k := rfl
        rw [hjob, ht] at hw
        simpa using hw
    unfold potential
    omega
  | @dispatched k rest s _ hr hd =>
    have hp := h.pop hl hr
    have hsum := sum_range_le (n := g.actions.length) hp.lt (c := 1) (d := 0)
      (f := weight g s) (h := weight g r) fun j => by
        have hw := hp.weight_dispatched hd j
        have ht := h.weight_pop hr j
        split <;> rename_i hj <;> simp only [hj, if_true, if_false] at hw ht ⊢ <;> omega
    unfold potential
    omega
  | exited => exact potential_leave hl rfl rfl

theorem Inv.potential_turn (h : Inv g env r) (hg : g.Wf hash) {cancel : Bool} {job : Option ℕ}
    (hs : r.turn g env cancel job = some s) : potential g s + 1 ≤ potential g r := by
  have hi := h.turn hg hs
  unfold Run.turn at hs
  split at hs
  · rename_i hl
    have hh := h.headOfTurn hl cancel
    dsimp only at hs
    split at hs
    · exact hh.potential_turned hl hi (hh.turnBody_cases hl hs)
    · cases hs
      exact potential_leave (r := r.headOfTurn cancel) hl rfl rfl
  · cases hs

/-! ## The potential of the other events -/

/-- The end of a commit that went well finishes the action. -/
theorem Inv.potential_endCommit {err : Option Err} (hi : Inv g env (r.endCommit g k err))
    (hm : r.main = .settle k) :
    potential g (r.endCommit g k err) ≤ potential g r := by
  have halive : (r.endCommit g k err).main.alive = r.main.alive := by
    rw [hm]
    cases err <;> rfl
  unfold potential
  rw [halive]
  refine Nat.add_le_add_right (Finset.sum_le_sum fun j _ => ?_) _
  cases err with
  | some e =>
    have htok : ({ r with main := .loop } : Run).main.token j ≤ r.main.token j := Nat.zero_le _
    simp only [weight, offset, jobOffset, stale, Run.endCommit]
    cases r.done j
    · simp only [cond_false]
      exact Nat.add_le_add_left (Nat.add_le_add_left htok _) _
    · exact Nat.le_refl 0
  | none =>
    refine (weight_finishAction (r := { r with main := .loop }) hi j).trans ?_
    change (bif update r.done k true j then 0 else 4 * (g.actions.length - r.completed)) ≤ _
    unfold weight
    by_cases hj : j = k
    · subst hj
      rw [update_self]
      exact Nat.zero_le _
    · rw [update_of_ne hj]
      cases r.done j
      · exact Nat.le_add_right _ _
      · exact Nat.le_refl 0

/-- A step of a job, seen from the potentials: it comes closer to its end, and
loads the epoch or keeps it. -/
structure Worked (r : Run) (k : ℕ) (s : Run) : Prop where
  mem : k ∈ r.jobs
  flight : ∃ f, s.flight = update r.flight k f ∧
    f.epoch = if r.phase k = .queued then r.completed else (r.flight k).epoch
  phase : ∃ q, s.phase = update r.phase k q ∧ q.left < (r.phase k).left
  same : s.done = r.done ∧ s.completed = r.completed ∧ s.ready = r.ready ∧ s.jobs = r.jobs ∧
    s.main = r.main ∧ s.turns = r.turns

theorem At.worked {p q : Phase} (hk : r.At k p) (hq : q.left < p.left) {f : Flight}
    (hepoch : f.epoch = if p = .queued then r.completed else (r.flight k).epoch)
    (hflight : s.flight = update r.flight k f) (hphase : s.phase = update r.phase k q)
    (same : s.done = r.done ∧ s.completed = r.completed ∧ s.ready = r.ready ∧ s.jobs = r.jobs ∧
      s.main = r.main ∧ s.turns = r.turns) : Worked r k s :=
  ⟨hk.1, ⟨f, hflight, by rwa [hk.2]⟩, ⟨q, hphase, by rwa [hk.2]⟩, same⟩

theorem Worked.stale (h : Worked r k s) (j : ℕ) : s.stale j = r.stale j := by
  obtain ⟨f, hflight, hepoch⟩ := h.flight
  obtain ⟨q, hphase, hleft⟩ := h.phase
  have hq : q ≠ .queued := by
    rintro rfl
    cases hp : r.phase k <;> rw [hp] at hleft <;> simp [Phase.left] at hleft
  simp only [Run.stale, hflight, hphase, h.same.2.1]
  by_cases hj : j = k
  · subst hj
    simp only [update_self, hepoch]
    by_cases hqueued : r.phase j = .queued
    · simp [hqueued]
    · simp [hqueued, hq]
  · simp only [update_of_ne hj]

theorem Worked.potential (h : Worked r k s) : potential g s = potential g r := by
  obtain ⟨h1, h2, h3, h4, h5, -⟩ := h.same
  exact potential_congr h1 h2 h3 h4 (by rw [h5]) (by rw [h5]) fun j _ => h.stale j

/-- The events other than turns: a job steps, `settle` writes, or the commit
that is going on comes closer to its end. -/
inductive Stepped (g : Graph) (r : Run) : Event W → Run → Prop
  | worked {e : Event W} {k : ℕ} {s : Run} :
    e.turns = 0 → e.steps = 1 → Worked r k s → Stepped g r e s
  | wrote {k : ℕ} {w : W} : Stepped g r (.write k w) { r with wrote := update r.wrote k true }
  | settle {k : ℕ} : r.main = .commit k →
      Stepped g r .settle { r with wrote := update r.wrote k false, main := .settle k }
  | commit {k : ℕ} {err : Option Err} :
    r.main = .settle k → Stepped g r (.commit err) (r.endCommit g k err)

theorem step_cases {e : Event W} (hs : r.step g env e = some s) :
    Stepped g r e s ∨ ∃ cancel job, e = .turn cancel job ∧ r.turn g env cancel job = some s := by
  cases e with
  | begin k =>
    obtain ⟨hk, rfl⟩ := of_guarded hs
    exact .inl (.worked rfl rfl (hk.worked (q := .looking) (by decide) rfl rfl rfl
      ⟨rfl, rfl, rfl, rfl, rfl, rfl⟩))
  | lookup k =>
    obtain ⟨hk, rfl⟩ := of_guarded hs
    refine .inl (.worked rfl rfl (hk.worked (q := .looked) (by decide) ?_ rfl rfl
      ⟨rfl, rfl, rfl, rfl, rfl, rfl⟩))
    split
    · rfl
    · split <;> rfl
    · rfl
  | miss k =>
    obtain ⟨hk, rfl⟩ := of_guarded hs
    exact .inl (.worked rfl rfl (hk.worked (q := .executing) (by decide) rfl
      (update_eq_self k r.flight).symm rfl ⟨rfl, rfl, rfl, rfl, rfl, rfl⟩))
  | restore k outputs =>
    obtain ⟨hk, rfl⟩ := of_guarded hs
    exact .inl (.worked rfl rfl (hk.1.worked (q := .settling) (by decide) rfl
      (update_eq_self k r.flight).symm rfl ⟨rfl, rfl, rfl, rfl, rfl, rfl⟩))
  | write k w =>
    obtain ⟨-, rfl⟩ := of_guarded hs
    exact .inl .wrote
  | restored k ok =>
    obtain ⟨hk, rfl⟩ := of_guarded hs
    cases ok with
    | true =>
      exact .inl (.worked rfl rfl (hk.worked (q := .finished)
        (f := { r.flight k with hit := true }) (by decide) rfl rfl rfl
        ⟨rfl, rfl, rfl, rfl, rfl, rfl⟩))
    | false =>
      exact .inl (.worked rfl rfl (hk.worked (q := .executing) (by decide) rfl
        (update_eq_self k r.flight).symm rfl ⟨rfl, rfl, rfl, rfl, rfl, rfl⟩))
  | execute k err rows digests =>
    obtain ⟨hk, rfl⟩ := of_guarded hs
    exact .inl (.worked rfl rfl (hk.1.worked (q := .finished)
      (f := { r.flight k with err := err, rows := canonicalize rows, digests := digests })
      (by decide) rfl rfl rfl ⟨rfl, rfl, rfl, rfl, rfl, rfl⟩))
  | turn cancel job => exact .inr ⟨cancel, job, rfl, hs⟩
  | settle =>
    simp only [Run.step] at hs
    split at hs
    · rename_i k hm
      cases hs
      exact .inl (.settle hm)
    · cases hs
  | commit err =>
    simp only [Run.step] at hs
    split at hs
    · rename_i k hm
      cases hs
      exact .inl (.commit hm)
    · cases hs

/-- Every turn lowers the potential, and no other event raises it. -/
theorem Inv.potential_step (h : Inv g env r) (hg : g.Wf hash) {e : Event W}
    (hs : r.step g env e = some s) : potential g s + e.turns ≤ potential g r := by
  have hi := h.step hg hs
  rcases step_cases hs with hst | ⟨cancel, job, rfl, ht⟩
  · cases hst with
    | worked he _ hw => rw [hw.potential, he, Nat.add_zero]
    | wrote => exact Nat.le_refl (potential g r)
    | @settle k hm =>
      refine Nat.le_of_eq (potential_congr (r := r) rfl rfl rfl rfl ?_ ?_ fun _ _ => rfl)
      · rw [hm]; rfl
      · rw [hm]; rfl
    | commit hm => exact hi.potential_endCommit hm
  · exact h.potential_turn hg ht

theorem potential_first_le (hg : g.Wf hash) :
    potential g (first g env) ≤ g.actions.length * (4 * g.actions.length + 3) + 1 := by
  have hw : ∀ k ∈ Finset.range g.actions.length,
      weight g (first g env) k ≤ 4 * g.actions.length + 3 := by
    intro k _
    have htok : (first g env).tokens k ≤ 1 := (first_inv hg).tokens_le k
    have hready : (first g env).ready.count k ≤ 1 := by unfold tokens at htok; omega
    change 4 * (g.actions.length - 0) + (3 * (first g env).ready.count k + 0 * _ + 0) ≤ _
    omega
  have hsum := Finset.sum_le_sum hw
  rw [Finset.sum_const_nat fun _ _ => rfl, Finset.card_range] at hsum
  exact Nat.add_le_add_right hsum 1

/-! ## Steps between turns -/

/-- What the jobs and the commit that is going on still have to do. -/
def work (g : Graph) (r : Run) : ℕ :=
  ∑ k ∈ Finset.range g.actions.length, r.jobs.count k * (r.phase k).left + r.main.left

theorem work_congr (hjobs : s.jobs = r.jobs) (hphase : s.phase = r.phase) :
    work g s + r.main.left = work g r + s.main.left := by
  unfold work
  rw [hjobs, hphase]
  omega

theorem Worked.work (h : Worked r k s) (hi : Inv g env r) : work g s + 1 ≤ work g r := by
  obtain ⟨q, hphase, hleft⟩ := h.phase
  obtain ⟨-, -, -, hjobs, hmain, -⟩ := h.same
  have hcount := (job_alone (hi.tokens_le k) h.mem).2.1
  have hlt := hi.tokens_lt k (tokens_pos_of_mem_jobs h.mem)
  have hsum := sum_range_le hlt (c := 1) (d := 0) (f := fun j => s.jobs.count j * (s.phase j).left)
    (h := fun j => r.jobs.count j * (r.phase j).left) fun j => by
      rw [hjobs, hphase]
      by_cases hj : j = k
      · subst hj
        rw [update_self, hcount]
        simp only [if_true]
        omega
      · simp [hj]
  unfold Run.work
  rw [hmain]
  omega

/-- A dispatch brings the steps of one job at most. -/
theorem Popped.work_dispatched (h : Popped g env r k) (hs : Dispatched g env r k s) :
    work g s ≤ work g r + 5 := by
  have hloop : r.main.left = 0 := by rw [h.loop]; rfl
  cases hs with
  | stillParked => exact Nat.le_add_right _ _
  | deferred => exact Nat.le_add_right _ _
  | commit =>
    have hw := work_congr (g := g) (r := r) (s := (r.unpark k).beginCommit g env k)
      (by obtain ⟨_, _, _, he⟩ := beginCommit_frame g env (r.unpark k) k; rw [he]; rfl)
      (by obtain ⟨_, _, _, he⟩ := beginCommit_frame g env (r.unpark k) k; rw [he]; rfl)
    rw [beginCommit_main, hloop] at hw
    have : (Main.commit k).left = 2 := rfl
    omega
  | submitted =>
    have hjobs := List.count_eq_zero.mpr h.zero.2.2.2
    have hsum := sum_range_le h.lt (c := 0) (d := 5)
      (f := fun j => ((r.unpark k).submit k).jobs.count j * (((r.unpark k).submit k).phase j).left)
      (h := fun j => r.jobs.count j * (r.phase j).left) fun j => by
        simp only [Run.submit, Run.unpark]
        by_cases hj : j = k
        · subst hj
          simp [hjobs, Phase.left]
        · simp [hj, List.count_cons_of_ne (Ne.symm hj)]
    have hmain : ((r.unpark k).submit k).main.left = 0 := hloop
    unfold work
    omega

/-- A finished job has no steps left, so a completion brings those of a commit
at most. -/
theorem Popped.work_completed (h : Popped g env r k) (hs : Completed g env r k s) :
    work g s ≤ work g r + 5 := by
  have hloop : r.main.left = 0 := by rw [h.loop]; rfl
  cases hs with
  | failed => exact Nat.le_add_right _ _
  | hit => exact Nat.le_add_right _ _
  | parked => exact Nat.le_add_right _ _
  | requeued => exact Nat.le_add_right _ _
  | commit =>
    have hw := work_congr (g := g) (r := r) (s := r.beginCommit g env k)
      (by obtain ⟨_, _, _, he⟩ := beginCommit_frame g env r k; rw [he])
      (by obtain ⟨_, _, _, he⟩ := beginCommit_frame g env r k; rw [he])
    rw [beginCommit_main, hloop] at hw
    have : (Main.commit k).left = 2 := rfl
    omega

theorem work_erase_le (r : Run) (k n : ℕ) :
    work g { r with jobs := r.jobs.erase k, inFlight := n } ≤ work g r := by
  refine Nat.add_le_add_right (Finset.sum_le_sum fun j _ => ?_) _
  exact Nat.mul_le_mul_right _ (List.erase_sublist.count_le j)

theorem Inv.work_turn (h : Inv g env r) {cancel : Bool} {job : Option ℕ}
    (hs : r.turn g env cancel job = some s) : work g s ≤ work g r + 5 := by
  unfold Run.turn at hs
  split at hs
  · rename_i hl
    have hh := h.headOfTurn hl cancel
    dsimp only at hs
    split at hs
    · cases hh.turnBody_cases hl hs with
      | completed hk _ hc =>
        exact ((hh.take hl hk).work_completed hc).trans
          (Nat.add_le_add_right (work_erase_le (r.headOfTurn cancel) _ _) 5)
      | dispatched _ hr hd => exact (hh.pop hl hr).work_dispatched hd
      | exited => exact (Nat.add_le_add_left (Nat.zero_le _) _).trans (Nat.le_add_right _ 5)
    · cases hs
      exact (Nat.add_le_add_left (Nat.zero_le _) _).trans (Nat.le_add_right _ 5)
  · cases hs

/-- Between two turns the jobs and the commit come closer to their ends. -/
theorem Inv.work_step (h : Inv g env r) {e : Event W} (hs : r.step g env e = some s) :
    work g s + e.steps ≤ work g r + 6 * e.turns := by
  rcases step_cases hs with hst | ⟨cancel, job, rfl, ht⟩
  · cases hst with
    | worked he hsteps hw =>
      rw [he, hsteps]
      exact hw.work h
    | wrote => exact Nat.le_refl (work g r)
    | @settle k hm =>
      have hw := work_congr (g := g) (r := r)
        (s := { r with wrote := update r.wrote k false, main := .settle k }) rfl rfl
      rw [hm] at hw
      have h1 : (Main.commit k).left = 2 := rfl
      have h2 : (Main.settle k).left = 1 := rfl
      have h3 : (Event.settle : Event W).steps = 1 := rfl
      simp only [h1, h2, h3] at hw ⊢
      omega
    | @commit k err hm =>
      have hw := work_congr (g := g) (r := r) (s := r.endCommit g k err)
        (by cases err <;> rfl) (by cases err <;> rfl)
      have h1 : (r.endCommit g k err).main.left = 0 := by cases err <;> rfl
      have h2 : (Main.settle k).left = 1 := rfl
      have h3 : (Event.commit err : Event W).steps = 1 := rfl
      rw [hm, h1, h2] at hw
      rw [h3]
      omega
  · have := h.work_turn ht
    exact Nat.add_le_add_right this 1

/-! ## The loop goes on until it is over -/

/-- A job that has not been handed back takes its next step. -/
theorem exists_worker_step (g : Graph) (env : Env) (hk : k ∈ r.jobs) (hph : r.phase k ≠ .finished) :
    ∃ (e : Event W) (s : Run), e.steps = 1 ∧ r.step g env e = some s := by
  cases hp : r.phase k with
  | queued => exact ⟨.begin k, _, rfl, if_pos ⟨hk, hp⟩⟩
  | looking => exact ⟨.lookup k, _, rfl, if_pos ⟨hk, hp⟩⟩
  | looked => exact ⟨.miss k, _, rfl, if_pos ⟨hk, hp⟩⟩
  | settling => exact ⟨.restored k false, _, rfl, if_pos ⟨hk, hp⟩⟩
  | executing =>
    exact ⟨.execute k none [] (List.replicate (g.produces k).length .zero), _, rfl,
      if_pos ⟨⟨hk, hp⟩, .inr rfl, List.length_replicate⟩⟩
  | finished => exact absurd hp hph

/-- At the head of the loop, with every job done, there is a turn to take. -/
theorem Inv.exists_turn (h : Inv g env r) (hl : r.main = .loop)
    (hjobs : ∀ k ∈ r.jobs, r.phase k = .finished) :
    ∃ (job : Option ℕ) (s : Run), r.turn g env false job = some s := by
  have hex : ∃ (job : Option ℕ) (s : Run), turnBody g env (r.headOfTurn false) job = some s := by
    cases hj : r.jobs with
    | cons k rest =>
      have hk : k ∈ r.jobs := by rw [hj]; exact List.mem_cons_self
      exact ⟨some k, _, if_pos ⟨hk, hjobs k hk⟩⟩
    | nil =>
      have hz : r.inFlight = 0 := by rw [h.inFlight_eq, hj]; rfl
      refine ⟨none, ?_⟩
      simp only [turnBody, idleTurn]
      split
      · exact ⟨_, rfl⟩
      · exact ⟨_, if_pos hz⟩
  obtain ⟨job, s, hs⟩ := hex
  unfold Run.turn
  simp only [hl, if_true]
  split
  · exact ⟨job, s, hs⟩
  · exact ⟨job, _, rfl⟩

/-- While the loop is not over some event other than a write is enabled. -/
theorem Inv.exists_step (h : Inv g env r) (hm : ∀ a, r.main ≠ .aborted a) (hx : r.main ≠ .exited) :
    ∃ (e : Event W) (s : Run), e.steps = 1 ∧ r.step g env e = some s := by
  cases hmain : r.main with
  | loop =>
    by_cases hjobs : ∀ k ∈ r.jobs, r.phase k = .finished
    · obtain ⟨job, s, hs⟩ := h.exists_turn hmain hjobs
      exact ⟨.turn false job, s, rfl, hs⟩
    · push Not at hjobs
      obtain ⟨k, hk, hph⟩ := hjobs
      exact exists_worker_step g env hk hph
  | commit k =>
    exact ⟨.settle, { r with wrote := update r.wrote k false, main := .settle k }, rfl,
      by simp only [Run.step, hmain]⟩
  | settle k => exact ⟨.commit none, r.endCommit g k none, rfl, by simp only [Run.step, hmain]⟩
  | exited => exact absurd hmain hx
  | aborted a => exact absurd hmain (hm a)

/-! ## The bound -/

theorem Turned.turns (h : Turned g env r s) : s.turns = r.turns := by
  cases h with
  | @completed k _ _ _ hc =>
    cases hc with
    | commit =>
      obtain ⟨_, _, _, he⟩ := beginCommit_frame g env
        { r with jobs := r.jobs.erase k, inFlight := r.inFlight - 1 } k
      rw [he]
    | _ => rfl
  | @dispatched k rest _ _ _ hd =>
    cases hd with
    | commit =>
      obtain ⟨_, _, _, he⟩ := beginCommit_frame g env (({ r with ready := rest } : Run).unpark k) k
      rw [he]
      rfl
    | _ => rfl
  | exited => rfl

/-- While the potential and the turns taken stay within the bound, the head of
a turn passes its assertion. -/
theorem Inv.within_step (h : Inv g env r) (hg : g.Wf hash)
    (hle : potential g r + r.turns ≤ turnsMax g.actions.length) (hm : r.main ≠ .aborted .turns)
    {e : Event W} (hs : r.step g env e = some s) :
    potential g s + s.turns ≤ turnsMax g.actions.length ∧ s.main ≠ .aborted .turns := by
  have hpot := h.potential_step hg hs
  rcases step_cases hs with hst | ⟨cancel, job, rfl, ht⟩
  · have hturns : s.turns = r.turns := by
      cases hst with
      | worked _ _ hw => exact hw.same.2.2.2.2.2
      | wrote => rfl
      | settle => rfl
      | @commit k err _ => cases err <;> rfl
    refine ⟨by omega, ?_⟩
    cases hst with
    | worked _ _ hw => rwa [hw.same.2.2.2.2.1]
    | wrote => exact hm
    | settle => nofun
    | @commit k err _ => cases err <;> nofun
  · have hone : (Event.turn cancel job : Event W).turns = 1 := rfl
    unfold Run.turn at ht
    split at ht
    · rename_i hl
      have hh := h.headOfTurn hl cancel
      have hbelow : (r.headOfTurn cancel).turns ≤ turnsMax g.actions.length := by
        change r.turns + 1 ≤ _
        omega
      simp only [hbelow, if_true] at ht
      have hturned := hh.turnBody_cases hl ht
      have hturns := hturned.turns
      change s.turns = r.turns + 1 at hturns
      refine ⟨by omega, ?_⟩
      rcases hturned.main hl with hs | hs | ⟨k, hs⟩ <;> rw [hs] <;> nofun
    · cases ht

/-- The bound of the source does not wrap, and pays for the first state. -/
theorem turnsMax_eq (hn : g.actions.length < 2 ^ 30) :
    turnsMax g.actions.length = 4 * (g.actions.length + 1) * (g.actions.length + 1) := by
  refine Nat.mod_eq_of_lt ?_
  have hlt : g.actions.length + 1 ≤ 2 ^ 30 := hn
  calc 4 * (g.actions.length + 1) * (g.actions.length + 1)
      ≤ 4 * 2 ^ 30 * 2 ^ 30 := Nat.mul_le_mul (Nat.mul_le_mul_left 4 hlt) hlt
    _ < 2 ^ 64 := by decide

theorem potential_first_le_turnsMax (hg : g.Wf hash) (hn : g.actions.length < 2 ^ 30) :
    potential g (first g env) ≤ turnsMax g.actions.length := by
  have hle : potential g (first g env) ≤ g.actions.length * (4 * g.actions.length + 3) + 1 :=
    potential_first_le hg
  rw [turnsMax_eq hn]
  generalize g.actions.length = n at hle ⊢
  calc potential g (first g env) ≤ n * (4 * n + 3) + 1 := hle
    _ ≤ 4 * (n + 1) * (n + 1) := by ring_nf; omega

/-- In every run of a graph of fewer than `2 ^ 30` actions the main loop takes
at most `4 * (n + 1) * (n + 1)` turns, so its assertion holds. Between turns
the jobs and the commits take a bounded number of steps, and while the loop is
not over one more step is enabled: no action is requeued or deferred for ever. -/
theorem turns_bounded {es : List (Event W)} (hb : Graph.Built env.hash g.roots g)
    (hn : g.actions.length < 2 ^ 30) (h : Reaches g env es r) :
    (es.map Event.turns).sum ≤ 4 * (g.actions.length + 1) * (g.actions.length + 1) ∧
      r.main ≠ .aborted .turns ∧
      (es.map Event.steps).sum ≤ 6 * (4 * (g.actions.length + 1) * (g.actions.length + 1)) ∧
      (r.main ≠ .exited → ∃ (e : Event W) (s : Run), e.steps = 1 ∧ r.step g env e = some s) := by
  have hg := hb.wf
  have hfirst : Inv g env (first g env) := first_inv hg
  have hinv := h.inv hg
  obtain ⟨r₀, h₀, hr⟩ := h
  rw [start_eq_first h₀] at hr
  have hturns := replay_amortized Event.turns (fun _ => 0) (potential g)
    (fun _ _ _ hi hs => ⟨Inv.step hi hg hs, hi.potential_step hg hs⟩) hfirst hr
  have hsteps := replay_amortized Event.steps (fun e => 6 * e.turns) (work g)
    (fun _ _ _ hi hs => ⟨Inv.step hi hg hs, hi.work_step hs⟩) hfirst hr
  have hbound : potential g (first g env) ≤ turnsMax g.actions.length :=
    potential_first_le_turnsMax hg hn
  have hnever := replay_invariant (I := fun r => Inv g env r ∧
      (potential g r + r.turns ≤ turnsMax g.actions.length ∧ r.main ≠ .aborted .turns) ∧
      r.main ≠ .aborted .firstLookup)
    (fun hI hs => ⟨hI.1.step hg hs, hI.1.within_step hg hI.2.1.1 hI.2.1.2 hs,
      hI.1.firstLookup hI.2.2 hs⟩) ⟨hfirst, ⟨hbound, nofun⟩, nofun⟩ hr
  rw [turnsMax_eq hn] at hbound
  have hzero : (es.map fun _ => 0).sum = 0 := by simp
  have hsix : (es.map fun e => 6 * e.turns).sum = 6 * (es.map Event.turns).sum :=
    List.sum_map_mul_left es Event.turns 6
  have hidle : work g (first g env) = 0 := by simp [work, first, Main.left]
  refine ⟨by omega, hnever.2.1.2, by omega, hinv.exists_step fun a => ?_⟩
  cases a with
  | turns => exact hnever.2.1.2
  | firstLookup => exact hnever.2.2

/-- The bound for a run with a requeue: it took seven turns of the 36. -/
theorem turns_bounded_requeue :
    ∃ r, Reaches requeueGraph emptyEnv requeueRun r ∧ r.main ≠ .aborted .turns ∧
      (requeueRun.map Event.turns).sum = 7 ∧ (requeueRun.map Event.turns).sum ≤ 36 ∧
      (requeueRun.map Event.steps).sum ≤ 6 * 36 := by
  obtain ⟨r, hr, -⟩ := requeueRun_reaches
  have h := turns_bounded requeueGraph_built (by decide) hr
  exact ⟨r, hr, h.2.1, by decide, h.1, h.2.2.1⟩

end Run
end Spn.Dag
