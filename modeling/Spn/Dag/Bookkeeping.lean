import Spn.Lib.WaitCycle
import Spn.Dag.Observed

/-! # The scheduler's books are sound

What the invariants of a run say together: an action is in one place at a
time, is submitted only when its inputs are there, finishes once and after the
producers of what it consumed and observed, and a run that returns without an
error has finished every action. An action is exempt from waiting for itself:
`defer_producer` returns at once when the producer is the action, so a row
that names one's own output orders nothing.
-/
namespace Spn.Dag

open Spn.Lib Function

namespace Run

variable {g : Graph} {env : Env} {r : Run} {W : Type}

/-- What an action depended on in a run, itself aside: the producers of its
declared inputs, of the rows it reported, and of the rows it was restored or
committed under. -/
def DependsOn (g : Graph) (r : Run) (k p : ℕ) : Prop :=
  p ∈ g.declaredProducers k ∨
    p ≠ k ∧ (r.Reported g k p ∨
      ∃ rows, (k, rows) ∈ r.finished ∧ p ∈ rows.flatMap g.obsProducers)

/-- Waiting for an input, or for a producer of a row. -/
def Waiting (r : Run) (k : ℕ) : Prop := 0 < r.pending k ∨ 0 < r.deferred k

/-- The books of a reachable state. -/
structure Bookkeeping (g : Graph) (r : Run) : Prop where
  /-- An action is finished at most once. -/
  finished_once : (r.finished.map Prod.fst).Nodup
  /-- A submitted action has all its declared producers finished. -/
  submitted : ∀ k ∈ r.jobs, ∀ p ∈ g.declaredProducers k, p ∈ r.finished.map Prod.fst
  /-- An action is on the ready stack once, in flight once, waiting, or
  finished, and not in two of these places. -/
  one_place : ∀ k, r.ready.count k ≤ 1 ∧ r.jobs.count k ≤ 1 ∧
    (k ∈ r.ready → k ∉ r.jobs ∧ ¬ r.Waiting k ∧ k ∉ r.finished.map Prod.fst) ∧
    (k ∈ r.jobs → ¬ r.Waiting k ∧ k ∉ r.finished.map Prod.fst) ∧
    (r.Waiting k → k ∉ r.finished.map Prod.fst)
  /-- The order of finishing is topological. -/
  topological : ∀ pre k rows post, r.finished = pre ++ (k, rows) :: post →
    ∀ p, r.DependsOn g k p → p ∈ pre.map Prod.fst
  /-- The run returns without an error exactly when every action finished and
  no error was recorded. -/
  ok_iff : r.main = .exited →
    (r.result g = none ↔ r.err = none ∧ ∀ k < g.actions.length, k ∈ r.finished.map Prod.fst)
  /-- A run that returns without an error saw no cycle. -/
  no_cycle : r.main = .exited → r.result g = none → Acyclic (r.DependsOn g)
  /-- The assertion at dispatch holds. -/
  first_lookup : r.main ≠ .aborted .firstLookup

theorem idxOf_lt_idxOf {α : Type} [DecidableEq α] {l pre post : List α} {a b : α} (hl : l.Nodup)
    (h : l = pre ++ a :: post) (hb : b ∈ pre) : l.idxOf b < l.idxOf a := by
  subst h
  have ha : a ∉ pre := fun hin =>
    (List.nodup_append.mp hl).2.2 a hin a List.mem_cons_self rfl
  rw [List.idxOf_append_of_mem hb, List.idxOf_append_of_notMem ha]
  have := List.idxOf_lt_length_iff.mpr hb
  omega

variable {hash : List UInt8 → Digest}

theorem dependsOn_lt (hg : g.Wf hash) {k p : ℕ} (h : r.DependsOn g k p) : p < g.actions.length := by
  rcases h with hd | ⟨-, ⟨rows, -, hp⟩ | ⟨rows, -, hp⟩⟩
  · obtain ⟨a, -, hap⟩ := List.mem_filterMap.mp hd
    exact hg.producer_lt hap
  · exact flatMap_obsProducers_lt hg rows p hp
  · exact flatMap_obsProducers_lt hg rows p hp

theorem Inv.dependsOn_before (h : Inv g env r) (ho : Observed g env r) {k p : ℕ}
    {pre post : List (ℕ × List Obs)} {rows : List Obs} (hf : r.finished = pre ++ (k, rows) :: post)
    (hp : r.DependsOn g k p) : p ∈ pre.map Prod.fst := by
  obtain ⟨hdecl, hrows⟩ := h.ordered pre k rows post hf
  rcases hp with hd | ⟨hne, hr | ⟨rows', hin, hpr⟩⟩
  · exact hdecl p hd
  · exact ho.reported_order pre k rows post hf p hr hne
  · -- the log holds one entry for the action
    have hsame : rows' = rows := by
      have hnd := h.nodup
      rw [hf, List.map_append, List.map_cons] at hnd
      rw [hf] at hin
      rcases List.mem_append.mp hin with hin | hin
      · exact absurd rfl ((List.nodup_append.mp hnd).2.2 k (List.mem_map_of_mem hin) k
          List.mem_cons_self)
      · rcases List.mem_cons.mp hin with heq | hin
        · exact (Prod.mk.inj heq).2
        · exact absurd (List.mem_map_of_mem hin)
            (List.nodup_cons.mp (List.nodup_append.mp hnd).2.1).1
    rw [hsame] at hpr
    exact hrows p hpr hne

theorem Inv.completed_iff (h : Inv g env r) :
    r.completed = g.actions.length ↔ ∀ k < g.actions.length, k ∈ r.finished.map Prod.fst := by
  have hsub : ∀ k ∈ r.finished.map Prod.fst, k ∈ List.range g.actions.length := by
    intro k hk
    have hd := (h.done_iff k).mpr hk
    refine List.mem_range.mpr (h.tokens_lt k ?_)
    simp [tokens, hd]
  have hlen : (r.finished.map Prod.fst).length = r.completed := by
    rw [List.length_map, h.completed_eq]
  constructor
  · intro hc k hk
    have hperm : (r.finished.map Prod.fst).Subperm (List.range g.actions.length) :=
      h.nodup.subperm hsub
    have := hperm.perm_of_length_le (by rw [List.length_range, hlen, hc])
    exact this.mem_iff.mpr (List.mem_range.mpr hk)
  · intro hall
    have hperm : (List.range g.actions.length).Subperm (r.finished.map Prod.fst) :=
      List.nodup_range.subperm fun k hk => hall k (List.mem_range.mp hk)
    have h1 := hperm.length_le
    have h2 := (h.nodup.subperm hsub).length_le
    rw [List.length_range] at h1 h2
    omega

theorem Inv.one_place (h : Inv g env r) (k : ℕ) :
    r.ready.count k ≤ 1 ∧ r.jobs.count k ≤ 1 ∧
      (k ∈ r.ready → k ∉ r.jobs ∧ ¬ r.Waiting k ∧ k ∉ r.finished.map Prod.fst) ∧
      (k ∈ r.jobs → ¬ r.Waiting k ∧ k ∉ r.finished.map Prod.fst) ∧
      (r.Waiting k → k ∉ r.finished.map Prod.fst) := by
  have htok := h.tokens_le k
  have hfin : k ∈ r.finished.map Prod.fst → r.done k = true := (h.done_iff k).mpr
  refine ⟨?_, ?_, fun hr => ?_, fun hj => ?_, fun hw hf => ?_⟩
  · unfold tokens at htok; omega
  · unfold tokens at htok; omega
  · obtain ⟨-, hj, -, hdef, hpend, hd⟩ := ready_alone htok hr
    refine ⟨List.count_eq_zero.mp hj, fun hw => ?_, fun hf => ?_⟩
    · rcases hw with hw | hw <;> omega
    · rw [hfin hf] at hd; cases hd
  · obtain ⟨-, -, -, hdef, hpend, hd⟩ := job_alone htok hj
    refine ⟨fun hw => ?_, fun hf => ?_⟩
    · rcases hw with hw | hw <;> omega
    · rw [hfin hf] at hd; cases hd
  · have hd := hfin hf
    rw [tokens, hd, Bool.toNat_true] at htok
    rcases hw with hw | hw <;> omega

theorem Inv.result_iff (h : Inv g env r) :
    r.result g = none ↔ r.err = none ∧ ∀ k < g.actions.length, k ∈ r.finished.map Prod.fst := by
  rw [← h.completed_iff]
  unfold Run.result
  cases r.err with
  | some e => simp
  | none => by_cases hc : r.completed = g.actions.length <;> simp [hc]

theorem Inv.acyclic (h : Inv g env r) (ho : Observed g env r) (hg : g.Wf hash)
    (hres : r.result g = none) : Acyclic (r.DependsOn g) := by
  refine acyclic_of_rank (fun k => (r.finished.map Prod.fst).idxOf k) fun k p hkp => ?_
  have hp := (h.result_iff.mp hres).2 p (dependsOn_lt hg hkp)
  by_cases hk : k ∈ r.finished.map Prod.fst
  · obtain ⟨⟨j, rows⟩, hin, rfl⟩ := List.mem_map.mp hk
    obtain ⟨pre, post, hf⟩ := List.append_of_mem hin
    have hsplit : r.finished.map Prod.fst = pre.map Prod.fst ++ j :: post.map Prod.fst := by
      rw [hf, List.map_append, List.map_cons]
    exact idxOf_lt_idxOf h.nodup hsplit (h.dependsOn_before ho hf hkp)
  · rw [List.idxOf_eq_length hk]
    exact List.idxOf_lt_length_iff.mpr hp

/-! ## The assertion at dispatch -/

/-- Where the main thread stands after the body of a turn. -/
theorem Turned.main {s : Run} (h : Turned g env r s) (hl : r.main = .loop) :
    s.main = .loop ∨ s.main = .exited ∨ ∃ k, s.main = .commit k := by
  cases h with
  | @completed k _ _ _ hc =>
    cases hc with
    | failed => exact .inl hl
    | hit => exact .inl hl
    | parked => exact .inl hl
    | requeued => exact .inl hl
    | commit => exact .inr (.inr ⟨k, beginCommit_main ..⟩)
  | @dispatched k _ _ _ _ hd =>
    cases hd with
    | stillParked => exact .inl hl
    | commit => exact .inr (.inr ⟨k, beginCommit_main ..⟩)
    | deferred => exact .inl hl
    | submitted => exact .inl hl
  | exited => exact .inr (.inl rfl)

/-- The events other than turns do not stop the main thread. -/
theorem step_main_of_not_turn {e : Event W} {s : Run} (hs : r.step g env e = some s)
    (he : e.turns = 0) : s.main = r.main ∨ s.main = .loop ∨ ∃ k, s.main = .settle k := by
  cases e with
  | begin | lookup | miss | restore | write | execute =>
    obtain ⟨-, rfl⟩ := of_guarded hs
    exact .inl rfl
  | restored k ok =>
    obtain ⟨-, rfl⟩ := of_guarded hs
    cases ok <;> exact .inl rfl
  | turn cancel job => cases he
  | settle =>
    simp only [Run.step] at hs
    split at hs
    · cases hs; exact .inr (.inr ⟨_, rfl⟩)
    · cases hs
  | commit err =>
    simp only [Run.step] at hs
    split at hs
    · cases hs
      cases err <;> exact .inr (.inl rfl)
    · cases hs

/-- No step of a reachable state runs into the assertion. -/
theorem Inv.firstLookup (h : Inv g env r) (hn : r.main ≠ .aborted .firstLookup) {e : Event W}
    {s : Run} (hs : r.step g env e = some s) : s.main ≠ .aborted .firstLookup := by
  by_cases he : e.turns = 0
  · rcases step_main_of_not_turn hs he with hm | hm | ⟨k, hm⟩
    · rwa [hm]
    · rw [hm]
      intro h
      cases h
    · rw [hm]
      intro h
      cases h
  · cases e with
    | turn cancel job =>
      simp only [Run.step, Run.turn] at hs
      split at hs
      · rename_i hl
        have hh := h.headOfTurn hl cancel
        split at hs
        · rcases (hh.turnBody_cases hl hs).main hl with hm | hm | ⟨k, hm⟩
          · rw [hm]
            intro h
            cases h
          · rw [hm]
            intro h
            cases h
          · rw [hm]
            intro h
            cases h
        · cases hs
          intro h
          cases h
      · cases hs
    | _ => exact absurd rfl he

/-- The bookkeeping of the scheduler is sound in every state of every run of a
graph that was built by the building calls. -/
theorem bookkeeping_sound {es : List (Event W)} (hb : Graph.Built env.hash g.roots g)
    (h : Reaches g env es r) : Bookkeeping g r := by
  have hg := hb.wf
  have hi := h.inv hg
  have ho := h.observed hg
  exact
    { finished_once := hi.nodup
      submitted := fun k hk p hp =>
        (hi.done_iff p).mp (hi.producers_done (job_alone (hi.tokens_le k) hk).2.2.2.2.1 hp)
      one_place := hi.one_place
      topological := fun pre k rows post hf p hp => hi.dependsOn_before ho hf hp
      ok_iff := fun _ => hi.result_iff
      no_cycle := fun _ hres => hi.acyclic ho hg hres
      first_lookup := by
        obtain ⟨r₀, h₀, hr⟩ := h
        rw [start_eq_first h₀] at hr
        exact (replay_invariant (I := fun r => Inv g env r ∧ r.main ≠ .aborted .firstLookup)
          (fun hI hs => ⟨hI.1.step hg hs, hI.1.firstLookup hI.2 hs⟩)
          ⟨first_inv hg, nofun⟩ hr).2 }

/-! ## An action that observes its own output -/

/-- One discovered action with one output. -/
def selfGraph : Graph where
  roots := ⟨fun _ => [], 0⟩
  artifacts := [⟨.file, str "o", ⟨.build, str "o"⟩, .zero, some 0, []⟩]
  actions := [⟨.discovered, .zero, [], [0]⟩]
  paths := [(⟨.build, str "o"⟩, 0)]

/-- A hash that is never zero. -/
def oneHash (_ : List UInt8) : Digest := ⟨1 :: List.replicate 31 0, rfl⟩

def emptyEnv : Env := ⟨oneHash, fun _ => none, fun _ => none, none⟩

/-- The action runs once, reports its own output and is committed. -/
def selfRun : List (Event Unit) :=
  [.turn false none, .begin 0, .lookup 0, .miss 0,
    .execute 0 none [⟨.file, ⟨.build, str "o"⟩, []⟩] [oneHash []],
    .turn false (some 0), .settle, .write 0 (), .commit none, .turn false none]

theorem selfGraph_built : Graph.Built oneHash selfGraph.roots selfGraph :=
  .addActionOutput (k := 0) (a := 0) (r := (selfGraph, none))
    (.addAction .discovered .zero
      (.addPath (g := Graph.new selfGraph.roots) (p := ⟨.build, str "o"⟩) (t := .file)
        .new (by decide) rfl))
    rfl

/-- What is looked at in the last state of a concrete run. -/
def summary (g : Graph) (r : Run) : Main × Option Err × List (ℕ × List Obs) :=
  (r.main, r.result g, r.finished)

theorem selfRun_reaches : ∃ r, Reaches selfGraph emptyEnv selfRun r ∧
    summary selfGraph r = (.exited, none, [(0, [⟨.file, ⟨.build, str "o"⟩, []⟩])]) := by
  have hr : (replay (step selfGraph emptyEnv) (first selfGraph emptyEnv) selfRun).map
      (summary selfGraph) =
      some (.exited, none, [(0, [⟨.file, ⟨.build, str "o"⟩, []⟩])]) := by decide
  obtain ⟨r, hr, hsum⟩ := Option.map_eq_some_iff.mp hr
  exact ⟨r, ⟨_, rfl, hr⟩, hsum⟩

/-- The run above returns without an error although the action finished before
the producer of a row it was committed under: itself. -/
theorem self_observation :
    ∃ r, Graph.Built oneHash selfGraph.roots selfGraph ∧
      Reaches selfGraph emptyEnv selfRun r ∧ r.main = .exited ∧ r.result selfGraph = none ∧
      ∃ pre k rows post, r.finished = pre ++ (k, rows) :: post ∧
        ∃ p ∈ rows.flatMap selfGraph.obsProducers, p ∉ pre.map Prod.fst := by
  obtain ⟨r, hr, hsum⟩ := selfRun_reaches
  simp only [summary, Prod.mk.injEq] at hsum
  obtain ⟨hm, hres, hf⟩ := hsum
  exact ⟨r, selfGraph_built, hr, hm, hres, [], 0, _, [], hf, 0, by decide, by decide⟩

/-! ## An action that is requeued -/

/-- A discovered action, and one whose output it will report. -/
def requeueGraph : Graph where
  roots := ⟨fun _ => [], 0⟩
  artifacts := [⟨.file, str "o", ⟨.build, str "o"⟩, .zero, some 0, []⟩,
    ⟨.file, str "x", ⟨.build, str "x"⟩, .zero, some 1, []⟩]
  actions := [⟨.discovered, .zero, [], [0]⟩, ⟨.static, .zero, [], [1]⟩]
  paths := [(⟨.build, str "o"⟩, 0), (⟨.build, str "x"⟩, 1)]

theorem requeueGraph_built : Graph.Built oneHash requeueGraph.roots requeueGraph :=
  .addActionOutput (k := 1) (a := 1) (r := (requeueGraph, none))
    (.addAction .static .zero
      (.addPath (p := ⟨.build, str "x"⟩) (t := .file)
        (.addActionOutput (k := 0) (a := 0)
          (.addAction .discovered .zero
            (.addPath (g := Graph.new requeueGraph.roots) (p := ⟨.build, str "o"⟩) (t := .file)
              .new (by decide) rfl))
          rfl)
        (by decide) rfl))
    rfl

def outputRow : Obs := ⟨.file, ⟨.build, str "x"⟩, []⟩

/-- The first action executes before the second one has written: it waits for the second one, is
woken, and executes again. -/
def requeueRun : List (Event Unit) :=
  [.turn false none, .turn false none, .begin 0, .lookup 0, .miss 0,
    .execute 0 none [outputRow] [oneHash []], .turn false (some 0),
    .begin 1, .lookup 1, .miss 1, .execute 1 none [] [oneHash []], .turn false (some 1), .settle,
    .write 1 (), .commit none, .turn false none,
    .begin 0, .lookup 0, .miss 0, .execute 0 none [outputRow] [oneHash []], .turn false (some 0),
    .settle, .write 0 (), .commit none, .turn false none]

theorem requeueRun_reaches : ∃ r, Reaches requeueGraph emptyEnv requeueRun r ∧
    summary requeueGraph r = (.exited, none, [(1, []), (0, [outputRow])]) := by
  have hr : (replay (step requeueGraph emptyEnv) (first requeueGraph emptyEnv) requeueRun).map
      (summary requeueGraph) = some (.exited, none, [(1, []), (0, [outputRow])]) := by decide
  obtain ⟨r, hr, hsum⟩ := Option.map_eq_some_iff.mp hr
  exact ⟨r, ⟨_, rfl, hr⟩, hsum⟩

/-- The books of that run, in which the first action executed twice and finished last. -/
theorem bookkeeping_sound_requeue :
    ∃ r, Reaches requeueGraph emptyEnv requeueRun r ∧ Bookkeeping requeueGraph r ∧ r.main = .exited ∧
      r.result requeueGraph = none ∧ r.finished = [(1, []), (0, [outputRow])] := by
  obtain ⟨r, hr, hsum⟩ := requeueRun_reaches
  simp only [summary, Prod.mk.injEq] at hsum
  exact ⟨r, hr, bookkeeping_sound requeueGraph_built hr, hsum⟩

end Run
end Spn.Dag
