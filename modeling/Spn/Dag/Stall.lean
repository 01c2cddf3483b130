import Spn.Dag.Turns

/-! # When a run can stall

At the end of a run without an error every unfinished action waits for an
unfinished one: the producer of an input, of a row it reported, or of a row
that the discovery table remembered for it. If these three relations together
have no cycle, nobody is left unfinished. The rows of the table are needed in
the condition: a remembered row delays the action whether or not it would be
reported again, so a table from before a dependency was reversed stalls a graph
that could be built.
-/
namespace Spn.Dag

open Spn.Lib Function

namespace Run

variable {g : Graph} {env : Env} {r s : Run} {k : ℕ} {W : Type}
variable {hash : List UInt8 → Digest}

/-- Whom an action can wait for: the producers of its declared inputs, of the
rows it reported in this run and, once its inputs are there, of the rows the
table given to the run holds under its weak key. -/
def Awaits (g : Graph) (env : Env) (r : Run) (k p : ℕ) : Prop :=
  p ∈ g.declaredProducers k ∨
    p ≠ k ∧ (r.Reported g k p ∨ r.pending k = 0 ∧ r.Recalled g env k p)

/-! ## Source artifacts -/

/-- An artifact without a producer keeps the digest it was seeded with. -/
theorem Inv.step_source (h : Inv g env r) (hg : g.Wf hash) {a : ℕ} (ha : g.producer a = none)
    {e : Event W} (hs : r.step g env e = some s) : s.digest a = r.digest a := by
  have hstore (digest : ℕ → Digest) (j : ℕ) (ds : List Digest) :
      storeDigests digest ((g.produces j).zip ds) a = digest a :=
    storeDigests_of_producer hg (by rw [ha]; nofun)
  cases e with
  | begin | lookup | miss | write | execute =>
    obtain ⟨-, rfl⟩ := of_guarded hs
    rfl
  | restore k outputs =>
    obtain ⟨-, rfl⟩ := of_guarded hs
    exact hstore r.digest k outputs
  | restored k ok =>
    obtain ⟨-, rfl⟩ := of_guarded hs
    cases ok <;> rfl
  | turn cancel job =>
    simp only [Run.step, Run.turn] at hs
    split at hs
    · rename_i hl
      have hh := h.headOfTurn hl cancel
      split at hs
      · cases hh.turnBody_cases hl hs with
        | completed _ _ hc =>
          cases hc with
          | commit => rw [beginCommit_digest, hstore]; rfl
          | _ => rfl
        | dispatched _ _ hd =>
          cases hd with
          | commit => rw [beginCommit_digest, hstore]; rfl
          | _ => rfl
        | exited => rfl
      · cases hs; rfl
    · cases hs
  | settle =>
    simp only [Run.step] at hs
    split at hs
    · cases hs; rfl
    · cases hs
  | commit err =>
    simp only [Run.step] at hs
    split at hs
    · cases hs
      cases err <;> rfl
    · cases hs

/-- The inputs nobody produces are there from the start. -/
theorem first_source_valid (hg : g.Wf env.hash) (hvalid : ∀ bytes, (env.hash bytes).valid = true)
    {r₀ : Run} (hstart : start g env = .ok r₀) {a : ℕ} (ha : a ∈ g.consumes k)
    (hp : g.producer a = none) : ((first g env).digest a).valid = true := by
  obtain ⟨hval, hseed⟩ := start_ok hstart
  have hlt := hg.inputs_lt k a ha
  have hx := List.getElem?_eq_getElem hlt
  have hxp : (g.artifacts[a]).producer = none := by simpa [Graph.producer, hx] using hp
  have hw := hg.artifact _ (List.getElem_mem hlt)
  have hsome := hseed a hlt
  change ((seedDigest g env a).getD .zero).valid = true
  cases hkind : (g.artifacts[a]).kind with
  | value =>
    obtain ⟨-, data, hd⟩ := hw.value hkind
    simp [seedDigest, hx, hkind, hd, hvalid]
  | file =>
    simp only [seedDigest, hx, hkind, hxp, and_self, if_true] at hsome ⊢
    split
    · exact hvalid _
    · rename_i hpin
      rw [if_neg hpin] at hsome
      obtain ⟨d, hd⟩ := Option.isSome_iff_exists.mp hsome
      obtain ⟨bytes, -, rfl⟩ := Option.map_eq_some_iff.mp hd
      rw [hd]
      exact hvalid _
  | tree =>
    -- a tree is never a source: the graph would not have been accepted
    exfalso
    have hne := hw.tree hkind
    have hv : g.violation a (g.artifacts[a]) = none := by
      have hmem : (g.artifacts[a], a) ∈ g.artifacts.zipIdx := by
        rw [List.mem_zipIdx_iff_getElem?]
        exact hx
      exact List.findSome?_eq_none_iff.mp hval _ hmem
    by_cases hfind : g.findPath (g.artifacts[a]).path = some a
    · simp [Graph.violation, hne, hkind, hxp, hfind] at hv
    · simp [Graph.violation, hne, hfind] at hv

/-! ## The end of the loop -/

/-- The loop is left with no job in flight and, unless the run failed, with
nobody ready. -/
def Drained (r : Run) : Prop := r.main = .exited → r.jobs = [] ∧ (r.err = none → r.ready = [])

theorem Inv.drained_step (h : Inv g env r) (hd : r.Drained) {e : Event W}
    (hs : r.step g env e = some s) : s.Drained := by
  rcases step_cases hs with hst | ⟨cancel, job, rfl, ht⟩
  · cases hst with
    | worked _ _ hw =>
      intro hx
      rw [hw.same.2.2.2.2.1] at hx
      have hmem := hw.mem
      rw [(hd hx).1] at hmem
      cases hmem
    | wrote => exact hd
    | settle => nofun
    | @commit k err _ => cases err <;> nofun
  · unfold Run.turn at ht
    split at ht
    · rename_i hl
      have hh := h.headOfTurn hl cancel
      dsimp only at ht
      split at ht
      · have hturned := hh.turnBody_cases hl ht
        cases hturned with
        | exited hz hready =>
          have hjobs : r.jobs = [] := List.length_eq_zero_iff.mp (h.inFlight_eq.symm.trans hz)
          exact fun _ => ⟨hjobs, hready⟩
        | @completed k _ hk hph hc =>
          intro hx
          cases hc with
          | commit => rw [beginCommit_main] at hx; cases hx
          | _ => exact absurd (hl.symm.trans hx) nofun
        | @dispatched k rest _ _ hr hdisp =>
          intro hx
          cases hdisp with
          | commit => rw [beginCommit_main] at hx; cases hx
          | _ => exact absurd (hl.symm.trans hx) nofun
      · cases ht
        nofun
    · cases ht

/-- Whoever has not finished at the end waits for somebody who has not. -/
theorem Inv.exists_awaited (h : Inv g env r) (ho : Observed g env r) (hg : g.Wf hash)
    (hsource : ∀ k, ∀ a ∈ g.consumes k, g.producer a = none → (r.digest a).valid = true)
    (hx : r.main = .exited) (hjobs : r.jobs = []) (hready : r.ready = []) (herr : r.err = none)
    (hk : k < g.actions.length) (hd : r.done k = false) :
    ∃ p < g.actions.length, r.done p = false ∧ r.Awaits g env k p := by
  have htok := h.tokens_live herr k hk
  have hm : r.main.token k = 0 := Main.token_of_none (by rw [hx]; rfl) k
  simp only [tokens, hjobs, hready, List.count_nil, hm, hd, Bool.toNat_false] at htok
  by_cases hpend : 0 < r.pending k
  · -- an input is missing, and only a producer can bring it
    rw [h.pending_eq, List.countP_pos_iff] at hpend
    obtain ⟨a, ha, hb⟩ := hpend
    unfold blocked at hb
    split at hb
    · rename_i p hp
      refine ⟨p, hg.producer_lt hp, by simpa using hb, .inl ?_⟩
      exact List.mem_filterMap.mpr ⟨a, ha, hp⟩
    · rename_i hp
      rw [hsource k a ha hp] at hb
      cases hb
  · -- an entry on a waiter list is left
    have hdef : 0 < r.deferred k := by omega
    rw [h.deferred_eq] at hdef
    obtain ⟨p, hp, hw⟩ := Finset.sum_pos_iff.mp hdef
    have hlt := Finset.mem_range.mp hp
    unfold waitsOn at hw
    cases hdone : r.done p with
    | true => simp [hdone] at hw
    | false =>
      rw [hdone, cond_false] at hw
      obtain ⟨hne, hz, hwait⟩ := ho.waits p k (List.count_pos_iff.mp hw)
      exact ⟨p, hlt, hdone, .inr ⟨hne, hwait.elim (fun hrec => .inr ⟨hz, hrec⟩) .inl⟩⟩

/-- A run without a failure finishes every action if nobody waits in a circle
for the producers of his inputs, of the rows he reports and of the rows the
discovery table remembered for him. -/
theorem not_stalled {es : List (Event W)} (hb : Graph.Built env.hash g.roots g)
    (hvalid : ∀ bytes, (env.hash bytes).valid = true) (h : Reaches g env es r)
    (hx : r.main = .exited) (herr : r.err = none) (hac : Acyclic (r.Awaits g env)) :
    r.result g = none := by
  have hg := hb.wf
  have hi := h.inv hg
  have ho := h.observed hg
  obtain ⟨r₀, h₀, hr⟩ := h
  have hfirst : r₀ = first g env := start_eq_first h₀
  subst hfirst
  obtain ⟨-, hdrained, hdigest⟩ := replay_invariant (I := fun r => Inv g env r ∧ r.Drained ∧
      ∀ a, g.producer a = none → r.digest a = (first g env).digest a)
    (fun hI hs => ⟨hI.1.step hg hs, hI.1.drained_step hI.2.1 hs,
      fun a ha => (hI.1.step_source hg ha hs).trans (hI.2.2 a ha)⟩)
    ⟨first_inv hg, nofun, fun _ _ => rfl⟩ hr
  obtain ⟨hjobs, hready⟩ := hdrained hx
  refine hi.result_iff.mpr ⟨herr, ?_⟩
  by_contra hno
  push Not at hno
  obtain ⟨k, hk, hkf⟩ := hno
  let left := (Finset.range g.actions.length).filter fun k => r.done k = false
  have hmem : ∀ {k}, k < g.actions.length → r.done k = false → k ∈ left := fun hk hd =>
    Finset.mem_filter.mpr ⟨Finset.mem_range.mpr hk, hd⟩
  have hd : r.done k = false := Bool.eq_false_iff.mpr fun hd => hkf ((hi.done_iff k).mp hd)
  obtain ⟨m, hm, hsink⟩ := hac.exists_sink (s := left) ⟨k, hmem hk hd⟩
  obtain ⟨hmlt, hmd⟩ := Finset.mem_filter.mp hm
  obtain ⟨p, hp, hpd, hawait⟩ := hi.exists_awaited ho hg (fun k a ha hap => by
    rw [hdigest a hap]
    exact first_source_valid hg hvalid h₀ ha hap) hx hjobs (hready herr) herr
    (Finset.mem_range.mp hmlt) hmd
  exact hsink p (hmem hp hpd) hawait

/-! ## A table from before a dependency was reversed -/

def fileA : Obs := ⟨.file, ⟨.build, str "a"⟩, []⟩

def fileB : Obs := ⟨.file, ⟨.build, str "b"⟩, []⟩

/-- Two discovered actions, one for each file. -/
def pairGraph : Graph where
  roots := ⟨fun _ => [], 0⟩
  artifacts :=
    [⟨.file, str "a", fileA.path, .zero, some 0, []⟩, ⟨.file, str "b", fileB.path, .zero, some 1, []⟩]
  actions := [⟨.discovered, .zero, [], [0]⟩, ⟨.discovered, .zero, [], [1]⟩]
  paths := [(fileA.path, 0), (fileB.path, 1)]

/-- A hash that is never zero and tells the two weak keys apart. -/
def lastByte (bytes : List UInt8) : Digest :=
  ⟨1 :: bytes.getLastD 0 :: List.replicate 30 0, rfl⟩

theorem lastByte_valid (bytes : List UInt8) : (lastByte bytes).valid = true := rfl

theorem pairGraph_built : Graph.Built lastByte pairGraph.roots pairGraph :=
  .addActionOutput (k := 1) (a := 1) (r := (pairGraph, none))
    (.addAction .discovered .zero
      (.addPath (p := fileB.path) (t := .file)
        (.addActionOutput (k := 0) (a := 0)
          (.addAction .discovered .zero
            (.addPath (g := Graph.new pairGraph.roots) (p := fileA.path) (t := .file)
              .new (by decide) rfl))
          rfl)
        (by decide) rfl))
    rfl

/-- What an earlier build left: the first action read the second file. -/
def staleEnv : Env where
  hash := lastByte
  files _ := none
  discovery key :=
    if key = weakKey lastByte pairGraph (fun _ => .zero) 0 then
      some ⟨pinnedDigest lastByte pairGraph.roots [fileB], [fileB]⟩
    else none
  fence := none

/-- The second action now reads the first file. The first one is not even
started, since the table makes it wait for the second. -/
def staleRun : List (Event Unit) :=
  [.turn false none, .turn false none, .begin 1, .lookup 1, .miss 1,
    .execute 1 none [fileA] [lastByte []], .turn false (some 1), .turn false none]

theorem pairGraph_declared (k : ℕ) : pairGraph.declaredProducers k = [] := by
  match k with
  | 0 => rfl
  | 1 => rfl
  | k + 2 => rfl

theorem pairGraph_reads (rows : List Obs) (hrows : rows = [fileA] ∨ rows = []) (p : ℕ)
    (hp : p ∈ rows.flatMap pairGraph.obsProducers) : rows = [fileA] ∧ p = 0 := by
  rcases hrows with rfl | rfl
  · have hprod : [fileA].flatMap pairGraph.obsProducers = [0] := by decide
    rw [hprod, List.mem_singleton] at hp
    exact ⟨rfl, hp⟩
  · cases hp

/-- The run stalls although what the actions need and report is without a
cycle and nothing failed. -/
theorem stale_table_stalls :
    ∃ r, Graph.Built lastByte pairGraph.roots pairGraph ∧
      Reaches pairGraph staleEnv staleRun r ∧
      Acyclic (fun k p => p ∈ pairGraph.declaredProducers k ∨ r.Reported pairGraph k p) ∧
      r.main = .exited ∧ r.err = none ∧ r.result pairGraph = some .stalled := by
  have hr : (replay (step pairGraph staleEnv) (first pairGraph staleEnv) staleRun).map
      (fun r => ((r.main, r.err), r.result pairGraph, r.reported)) =
      some ((.exited, none), some .stalled, [(1, [fileA])]) := by decide
  obtain ⟨r, hr, hsum⟩ := Option.map_eq_some_iff.mp hr
  simp only [Prod.mk.injEq] at hsum
  obtain ⟨⟨hm, herr⟩, hres, hrep⟩ := hsum
  refine ⟨r, pairGraph_built, ⟨_, rfl, hr⟩, acyclic_of_rank id ?_, hm, herr, hres⟩
  rintro k p (hd | ⟨rows, hrows, hp⟩)
  · rw [pairGraph_declared] at hd
    cases hd
  · rw [hrep, List.mem_singleton, Prod.mk.injEq] at hrows
    obtain ⟨rfl, rfl⟩ := hrows
    rw [(pairGraph_reads _ (.inl rfl) p hp).2]
    exact Nat.one_pos

def freshEnv : Env := { staleEnv with discovery := fun _ => none }

/-- The same graph with an empty table: the second action is parked, requeued
when the first one has written, and executed again. -/
def freshRun : List (Event Unit) :=
  [.turn false none, .turn false none, .begin 1, .lookup 1, .miss 1,
    .execute 1 none [fileA] [lastByte []], .turn false (some 1),
    .begin 0, .lookup 0, .miss 0, .execute 0 none [] [lastByte []],
    .turn false (some 0), .settle, .write 0 (), .commit none,
    .turn false none, .begin 1, .lookup 1, .miss 1, .execute 1 none [fileA] [lastByte []],
    .turn false (some 1), .settle, .commit none, .turn false none]

/-- No failure, no cycle: every action finishes. -/
theorem not_stalled_fresh :
    ∃ r, Reaches pairGraph freshEnv freshRun r ∧ r.result pairGraph = none := by
  have hr : (replay (step pairGraph freshEnv) (first pairGraph freshEnv) freshRun).map
      (fun r => (r.main, r.err, r.reported)) =
      some (.exited, none, [(1, [fileA]), (0, []), (1, [fileA])]) := by decide
  obtain ⟨r, hr, hsum⟩ := Option.map_eq_some_iff.mp hr
  simp only [Prod.mk.injEq] at hsum
  obtain ⟨hm, herr, hrep⟩ := hsum
  have hreach : Reaches pairGraph freshEnv freshRun r := ⟨_, rfl, hr⟩
  refine ⟨r, hreach, not_stalled pairGraph_built lastByte_valid hreach hm herr ?_⟩
  refine acyclic_of_rank id ?_
  rintro k p (hd | ⟨-, ⟨rows, hrows, hp⟩ | ⟨-, -, set, hset, -⟩⟩)
  · rw [pairGraph_declared] at hd
    cases hd
  · rw [hrep] at hrows
    simp only [List.mem_cons, Prod.mk.injEq, List.not_mem_nil, or_false] at hrows
    obtain ⟨rfl, rfl⟩ | ⟨rfl, rfl⟩ | ⟨rfl, rfl⟩ := hrows
    · rw [(pairGraph_reads _ (.inl rfl) p hp).2]
      exact Nat.one_pos
    · cases hp
    · rw [(pairGraph_reads _ (.inl rfl) p hp).2]
      exact Nat.one_pos
  · cases hset

end Run
end Spn.Dag
