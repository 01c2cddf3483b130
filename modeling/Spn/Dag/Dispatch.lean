import Spn.Dag.Run
import Spn.Dag.Wellformed

/-! # What one turn can do

The functions of the main loop in closed form: what a deferral adds to the
waiter lists, and what a dispatch or a completion leaves behind. The arguments
about runs cite these and do not unfold the loop again.
-/
namespace Spn.Dag

open Spn.Lib Function

namespace Graph

variable {hash : List UInt8 → Digest} {g : Graph}

theorem byPath_some {p : Path} {t : Target} (h : g.byPath p = some t) :
    ∃ x ∈ g.artifacts, x.producer = some t.producer ∧ x.path.empty = false ∧ x.path = p ∧
      x.kind = t.kind := by
  obtain ⟨x, hx, hf⟩ := List.exists_of_findSome?_eq_some h
  cases hp : x.producer with
  | none => simp [hp] at hf
  | some k =>
    simp only [hp] at hf
    split at hf
    · rename_i hc
      cases hf
      exact ⟨x, hx, hp, hc.1, hc.2, rfl⟩
    · cases hf

theorem mem_below {dir : Path} {k : ℕ} :
    k ∈ g.below dir ↔ ∃ x ∈ g.artifacts, x.producer = some k ∧ x.path.empty = false ∧
      dir ∈ x.path.ancestors := by
  unfold below
  rw [List.mem_filterMap]
  constructor
  · rintro ⟨x, hx, hf⟩
    cases hp : x.producer with
    | none => simp [hp] at hf
    | some j =>
      simp only [hp] at hf
      split at hf
      · rename_i hc
        cases hf
        exact ⟨x, hx, hp, hc.1, hc.2⟩
      · cases hf
  · rintro ⟨x, hx, hp, he, hd⟩
    exact ⟨x, hx, by simp [hp, he, hd]⟩

theorem treeProducer_some {dir : Path} {k : ℕ} (h : g.treeProducer dir = some k) :
    g.byPath dir = some ⟨k, .tree⟩ := by
  unfold treeProducer at h
  split at h
  · cases h; assumption
  · cases h

theorem Wf.artifact_producer_lt (h : g.Wf hash) {x : Artifact} {k : ℕ} (hx : x ∈ g.artifacts)
    (hp : x.producer = some k) : k < g.actions.length := by
  obtain ⟨a, ha, rfl⟩ := List.getElem_of_mem hx
  exact h.producer_lt (a := a) (by simp [producer, List.getElem?_eq_getElem ha, hp])

/-- The producers of a row are actions of the graph. -/
theorem Wf.obsProducers_lt (h : g.Wf hash) {o : Obs} {k : ℕ} (hk : k ∈ g.obsProducers o) :
    k < g.actions.length := by
  unfold obsProducers at hk
  split at hk
  · cases hk
  rcases List.mem_append.mp hk with hk | hk
  · rcases List.mem_append.mp hk with hk | hk
    · cases hb : g.byPath o.path with
      | none => simp [hb] at hk
      | some t =>
        obtain ⟨x, hx, hp, -⟩ := byPath_some hb
        obtain rfl : k = t.producer := by simpa [hb] using hk
        exact h.artifact_producer_lt hx hp
    · obtain ⟨d, -, hd⟩ := List.mem_filterMap.mp hk
      obtain ⟨x, hx, hp, -⟩ := byPath_some (treeProducer_some hd)
      exact h.artifact_producer_lt hx hp
  · split at hk
    · obtain ⟨x, hx, hp, -⟩ := mem_below.mp hk
      exact h.artifact_producer_lt hx hp
    · cases hk

end Graph

namespace Run

/-! ## Deferral in closed form -/

/-- The producers an action waits for, one entry for each visit. -/
def blockers (r : Run) (k : ℕ) (ps : List ℕ) : List ℕ := ps.filter fun p => p ≠ k ∧ r.done p = false

/-- A producer has written since the action started. -/
def requeues (r : Run) (k epoch : ℕ) (ps : List ℕ) : Bool :=
  ps.any fun p => p ≠ k ∧ r.done p ∧ epoch < r.doneEpoch p ∧ r.wrote p

/-- The action on the waiter list of each producer it waits for. -/
def defer (r : Run) (k : ℕ) (ps : List ℕ) : Run :=
  { r with
    waiters := fun p => r.waiters p ++ List.replicate ((r.blockers k ps).count p) k
    deferred := update r.deferred k (r.deferred k + (r.blockers k ps).length) }

theorem mem_blockers {r : Run} {k p : ℕ} {ps : List ℕ} :
    p ∈ r.blockers k ps ↔ p ∈ ps ∧ p ≠ k ∧ r.done p = false := by
  simp [blockers]

theorem blockers_eq_nil {r : Run} {k : ℕ} {ps : List ℕ} :
    r.blockers k ps = [] ↔ ∀ p ∈ ps, p ≠ k → r.done p = true := by
  simp [blockers, List.filter_eq_nil_iff]

theorem defer_nil (r : Run) (k : ℕ) : r.defer k [] = r := by
  simp [defer, blockers]

theorem defer_of_blockers_nil {r : Run} {k : ℕ} {ps : List ℕ} (h : r.blockers k ps = []) :
    r.defer k ps = r := by
  simp [defer, h]

theorem deferProducer_self (k epoch : ℕ) (s : Run × Bool) : deferProducer k epoch s k = s := by
  simp [deferProducer]

theorem foldl_deferProducer (k epoch : ℕ) :
    ∀ (ps : List ℕ) (r : Run) (b : Bool),
      ps.foldl (deferProducer k epoch) (r, b) = (r.defer k ps, b || r.requeues k epoch ps)
  | [], r, b => by simp [defer_nil, requeues]
  | p :: ps, r, b => by
    rw [List.foldl_cons]
    by_cases hpk : p = k
    · subst hpk
      rw [deferProducer_self, foldl_deferProducer p epoch ps]
      simp [defer, blockers, requeues]
    · by_cases hd : r.done p = true
      · have hone : deferProducer k epoch (r, b) p =
            (r, b || (decide (epoch < r.doneEpoch p) && r.wrote p)) := by
          simp [deferProducer, hpk, hd]
        rw [hone, foldl_deferProducer k epoch ps]
        simp [defer, blockers, requeues, hpk, hd, Bool.or_assoc]
      · have hf : r.done p = false := by simpa using hd
        have hone : deferProducer k epoch (r, b) p =
            ({ r with
                waiters := update r.waiters p (r.waiters p ++ [k])
                deferred := update r.deferred k (r.deferred k + 1) }, b) := by
          simp [deferProducer, hpk, hf]
        rw [hone, foldl_deferProducer k epoch ps]
        have hw : ∀ q, update r.waiters p (r.waiters p ++ [k]) q
              ++ List.replicate ((r.blockers k ps).count q) k =
            r.waiters q ++ List.replicate ((r.blockers k (p :: ps)).count q) k := by
          intro q
          by_cases hq : q = p
          · subst hq
            simp [blockers, hpk, hf, List.append_assoc, ← List.replicate_succ]
          · simp [blockers, hpk, hf, update_of_ne hq, Ne.symm hq]
        refine Prod.ext ?_ ?_
        · simp only [defer]
          congr 1
          · simp [blockers, hpk, hf, Nat.add_assoc, Nat.add_comm 1]
          · exact funext hw
        · simp [requeues, hf]

/-- `defer_observations` in closed form. -/
theorem deferObservations_eq (g : Graph) (k : ℕ) (rows : List Obs) (epoch : ℕ) (r : Run) :
    deferObservations g k rows epoch r =
      (r.defer k (rows.flatMap g.obsProducers),
        r.requeues k epoch (rows.flatMap g.obsProducers)) := by
  rw [deferObservations, foldl_deferProducer, Bool.false_or]

/-- An action nobody defers yet is deferred by a visit exactly when it has to
wait. -/
theorem defer_deferred_pos {r : Run} {k : ℕ} {ps : List ℕ} (h : r.deferred k = 0) :
    0 < (r.defer k ps).deferred k ↔ r.blockers k ps ≠ [] := by
  simp [defer, h, List.length_pos_iff]

/-- A visit at the current epoch never asks for a requeue. -/
theorem requeues_now {r : Run} (h : ∀ p, r.done p = true → r.doneEpoch p ≤ r.completed)
    (k : ℕ) (ps : List ℕ) : r.requeues k r.completed ps = false := by
  simp only [requeues, List.any_eq_false, decide_eq_true_eq]
  rintro p - ⟨-, hd, he, -⟩
  exact absurd (h p hd) (by omega)

/-! ## What a dispatch and a completion leave behind -/

/-- The action is no longer parked. -/
def unpark (r : Run) (k : ℕ) : Run := { r with parked := update r.parked k false }

theorem unpark_of_not_parked {r : Run} {k : ℕ} (h : r.parked k = false) : r.unpark k = r := by
  simp [unpark, ← h]

/-- The producers of the rows an attempt reported. -/
def reportedProducers (g : Graph) (r : Run) (k : ℕ) : List ℕ :=
  (r.flight k).rows.flatMap g.obsProducers

/-- The pathset `run_dispatch` finds for an action. -/
def remembered (g : Graph) (env : Env) (r : Run) (k : ℕ) : Option Pathset :=
  if g.actionKind k = some .discovered then r.discovery (weakKey env.hash g r.digest k) else none

/-- The producers of the rows of that pathset. -/
def rememberedProducers (g : Graph) (env : Env) (r : Run) (k : ℕ) : List ℕ :=
  match r.remembered g env k with
  | some set => set.obs.flatMap g.obsProducers
  | none => []

/-- What `run_dispatch` can do. -/
inductive Dispatched (g : Graph) (env : Env) (r : Run) (k : ℕ) : Run → Prop
  /-- A parked attempt still waits for a producer of its rows. -/
  | stillParked : r.parked k = true → r.blockers k (r.reportedProducers g k) ≠ [] →
      Dispatched g env r k (r.defer k (r.reportedProducers g k))
  /-- A parked attempt is committed. -/
  | commit : r.parked k = true → r.blockers k (r.reportedProducers g k) = [] →
      r.requeues k (r.flight k).epoch (r.reportedProducers g k) = false →
      Dispatched g env r k (beginCommit g env (r.unpark k) k)
  /-- The action waits for a producer of a row of a remembered pathset. -/
  | deferred : (r.parked k = true → r.blockers k (r.reportedProducers g k) = []) →
      r.blockers k (r.rememberedProducers g env k) ≠ [] →
      Dispatched g env r k ((r.unpark k).defer k (r.rememberedProducers g env k))
  /-- The job is submitted. -/
  | submitted : (r.parked k = true → r.blockers k (r.reportedProducers g k) = []) →
      r.blockers k (r.rememberedProducers g env k) = [] →
      Dispatched g env r k (submit (r.unpark k) k)

theorem dispatchLookup_cases (g : Graph) (env : Env) {r : Run} {k : ℕ}
    (hk : r.deferred k = 0) (he : ∀ p, r.done p = true → r.doneEpoch p ≤ r.completed) :
    r.blockers k (r.rememberedProducers g env k) ≠ [] ∧
        dispatchLookup g env r k = r.defer k (r.rememberedProducers g env k) ∨
      r.blockers k (r.rememberedProducers g env k) = [] ∧ dispatchLookup g env r k = submit r k := by
  unfold dispatchLookup
  by_cases hd : g.actionKind k = some .discovered
  · cases hset : r.discovery (weakKey env.hash g r.digest k) with
    | none =>
      have hrem : r.rememberedProducers g env k = [] := by
        simp [rememberedProducers, remembered, hd, hset]
      exact .inr ⟨by simp [hrem, blockers], by simp [hd]⟩
    | some set =>
      have hrem : r.rememberedProducers g env k = set.obs.flatMap g.obsProducers := by
        simp [rememberedProducers, remembered, hd, hset]
      rw [hrem]
      simp only [hd, if_true, deferObservations_eq, defer_deferred_pos hk, requeues_now he]
      by_cases hb : r.blockers k (set.obs.flatMap g.obsProducers) = []
      · exact .inr ⟨hb, by simp [hb, defer_of_blockers_nil hb]⟩
      · exact .inl ⟨hb, by simp [hb]⟩
  · have hrem : r.rememberedProducers g env k = [] := by
      simp [rememberedProducers, remembered, hd]
    exact .inr ⟨by simp [hrem, blockers], by simp [hd]⟩

theorem runDispatch_cases {g : Graph} {env : Env} {r : Run} {k : ℕ}
    (hk : r.deferred k = 0) (he : ∀ p, r.done p = true → r.doneEpoch p ≤ r.completed) :
    Dispatched g env r k (runDispatch g env r k) := by
  have fresh (hp : r.parked k = true → r.blockers k (r.reportedProducers g k) = []) :
      Dispatched g env r k (dispatchLookup g env (r.unpark k) k) := by
    rcases dispatchLookup_cases g env (r := r.unpark k) hk he with ⟨hb, h⟩ | ⟨hb, h⟩
    · rw [h]; exact .deferred hp hb
    · rw [h]; exact .submitted hp hb
  unfold runDispatch
  by_cases hp : r.parked k = true
  · simp only [hp, if_true, deferObservations_eq, defer_deferred_pos hk]
    by_cases hb : r.blockers k (r.reportedProducers g k) = []
    · have hb' : r.blockers k ((r.flight k).rows.flatMap g.obsProducers) = [] := hb
      simp only [hb', defer_of_blockers_nil hb', ne_eq, not_true_eq_false, if_false]
      split
      · exact fresh fun _ => hb
      · rename_i hq
        exact .commit hp hb (Bool.eq_false_iff.mpr hq)
    · have hb' : r.blockers k ((r.flight k).rows.flatMap g.obsProducers) ≠ [] := hb
      simp only [ne_eq, hb', not_false_eq_true, if_true]
      exact .stillParked hp hb
  · have hf : r.parked k = false := by simpa using hp
    rw [unpark_of_not_parked hf] at fresh
    simpa [hf] using fresh fun h => absurd h hp

/-- What `run_complete` can do with the job of an action. -/
inductive Completed (g : Graph) (env : Env) (r : Run) (k : ℕ) : Run → Prop
  /-- The run has failed, or this job has. -/
  | failed (e : Err) : (r.err = none → (r.flight k).err = some e) →
      (∀ e', r.err = some e' → e = e') → Completed g env r k { r with err := some e }
  /-- The action was restored. -/
  | hit : r.err = none → (r.flight k).hit = true → Completed g env r k (finishAction g r k)
  /-- The attempt waits for a producer of a row it reported. -/
  | parked : r.err = none → g.actionKind k = some .discovered →
      r.blockers k (r.reportedProducers g k) ≠ [] →
      Completed g env r k
        { r.defer k (r.reportedProducers g k) with parked := update r.parked k true }
  /-- A producer of a row it reported has written since the attempt started. -/
  | requeued : r.err = none →
      r.blockers k (r.reportedProducers g k) = [] →
      r.requeues k (r.flight k).epoch (r.reportedProducers g k) = true →
      Completed g env r k { r with ready := k :: r.ready }
  /-- The attempt is committed. -/
  | commit : r.err = none →
      (g.actionKind k = some .discovered → r.blockers k (r.reportedProducers g k) = [] ∧
        r.requeues k (r.flight k).epoch (r.reportedProducers g k) = false) →
      Completed g env r k (beginCommit g env r k)

theorem runComplete_cases {g : Graph} {env : Env} {r : Run} {k : ℕ} (hk : r.deferred k = 0) :
    Completed g env r k (runComplete g env r k) := by
  unfold runComplete
  dsimp only
  cases herr : r.err with
  | some e =>
    simp only [Option.isSome_some, true_or, if_true, Option.orElse_eq_orElse, Option.orElse_some]
    rw [← herr]
    have : Completed g env r k { r with err := some e } := .failed e (by simp [herr])
      (by simp [herr])
    rwa [← herr] at this
  | none =>
    cases hferr : (r.flight k).err with
    | some e =>
      have : Completed g env r k { r with err := some e } := .failed e (fun _ => hferr)
        (by simp [herr])
      simpa using this
    | none =>
      simp only [Option.isSome_none, Bool.false_eq_true, or_self, if_false]
      cases hhit : (r.flight k).hit with
      | true => exact .hit herr hhit
      | false =>
        simp only [Bool.false_eq_true, if_false, deferObservations_eq, defer_deferred_pos hk]
        split
        · rename_i hd
          by_cases hb : r.blockers k (r.reportedProducers g k) = []
          · have hb' : r.blockers k ((r.flight k).rows.flatMap g.obsProducers) = [] := hb
            simp only [hb', defer_of_blockers_nil hb', ne_eq, not_true_eq_false, if_false]
            split
            · rename_i hq
              exact .requeued herr hb hq
            · rename_i hq
              exact .commit herr fun _ => ⟨hb, Bool.eq_false_iff.mpr hq⟩
          · have hb' : r.blockers k ((r.flight k).rows.flatMap g.obsProducers) ≠ [] := hb
            simp only [ne_eq, hb', not_false_eq_true, if_true]
            exact .parked herr hd hb
        · rename_i hd
          exact .commit herr fun h => absurd h hd

end Run
end Spn.Dag
