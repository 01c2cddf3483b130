import Spn.Dag.Dispatch

/-! # The books of a run

The counters of a run say what they are meant to say: `pending` is the number
of inputs not produced yet, `deferred` the number of entries an action has on
the waiter lists of unfinished producers, `completed` the length of the log of
finished actions. Every action of the graph holds one token: it is ready, in
flight, being committed, waiting on one of the two counters, or finished.
-/
namespace Spn.Dag

open Spn.Lib Function

namespace Run

variable {g : Graph} {hash : List UInt8 → Digest} {r : Run} {k : ℕ}

/-! ## Counters -/

/-- An input that is not there yet. -/
def blocked (g : Graph) (r : Run) (a : ℕ) : Bool :=
  match g.producer a with
  | some p => !r.done p
  | none => !(r.digest a).valid

/-- The entries an action has on the waiter list of an unfinished producer. -/
def waitsOn (r : Run) (k p : ℕ) : ℕ := bif r.done p then 0 else (r.waiters p).count k

structure Books (g : Graph) (r : Run) : Prop where
  pending_eq : ∀ k, r.pending k = (g.consumes k).countP (r.blocked g)
  deferred_eq : ∀ k, r.deferred k = ∑ p ∈ Finset.range g.actions.length, r.waitsOn k p
  completed_eq : r.completed = r.finished.length
  done_iff : ∀ k, r.done k = true ↔ k ∈ r.finished.map Prod.fst
  nodup : (r.finished.map Prod.fst).Nodup
  epoch_le : ∀ p, r.done p = true → r.doneEpoch p ≤ r.completed

theorem sum_count_eq_length {n : ℕ} {done : ℕ → Bool} :
    ∀ {ps : List ℕ}, (∀ p ∈ ps, p < n ∧ done p = false) →
      ∑ p ∈ Finset.range n, (bif done p then 0 else ps.count p) = ps.length
  | [], _ => by simp
  | q :: ps, h => by
    have hq := h q (by simp)
    have ih := sum_count_eq_length fun p hp => h p (List.mem_cons_of_mem q hp)
    have hsplit : ∀ p ∈ Finset.range n, (bif done p then 0 else (q :: ps).count p) =
        (bif done p then 0 else ps.count p) + if q = p then 1 else 0 := by
      intro p _
      rw [List.count_cons]
      by_cases hqp : q = p
      · subst hqp; simp [hq.2]
      · simp [hqp]
    rw [Finset.sum_congr rfl hsplit, Finset.sum_add_distrib, ih]
    simp [hq.1]

/-- A deferral adds the action to as many waiter lists as its counter grows. -/
theorem Books.defer (h : Books g r) {ps : List ℕ} (hps : ∀ p ∈ ps, p < g.actions.length) :
    Books g (r.defer k ps) := by
  refine ⟨h.pending_eq, fun j => ?_, h.completed_eq, h.done_iff, h.nodup, h.epoch_le⟩
  have hw : ∀ p, (r.defer k ps).waitsOn j p =
      r.waitsOn j p + if j = k then (bif r.done p then 0 else (r.blockers k ps).count p) else 0 := by
    intro p
    simp only [waitsOn, Run.defer, List.count_append, List.count_replicate, beq_iff_eq]
    by_cases hjk : j = k
    · subst hjk; cases r.done p <;> simp
    · simp [hjk, Ne.symm hjk]
  rw [Finset.sum_congr rfl fun p _ => hw p, Finset.sum_add_distrib, ← h.deferred_eq j]
  by_cases hjk : j = k
  · subst hjk
    simp only [if_true]
    rw [sum_count_eq_length fun p hp => ⟨hps p (mem_blockers.mp hp).1, (mem_blockers.mp hp).2.2⟩]
    simp [Run.defer]
  · simp [Run.defer, hjk]

theorem sum_waitsOn_finish {n : ℕ} (hk : k < n) (hd : r.done k = false) (j : ℕ) :
    ∑ p ∈ Finset.range n, (bif update r.done k true p then 0 else (r.waiters p).count j) =
      (∑ p ∈ Finset.range n, r.waitsOn j p) - (r.waiters k).count j := by
  have hmem : k ∈ Finset.range n := Finset.mem_range.mpr hk
  have hcongr : ∀ p ∈ (Finset.range n).erase k,
      (bif update r.done k true p then 0 else (r.waiters p).count j) = r.waitsOn j p := by
    intro p hp
    rw [update_of_ne (Finset.ne_of_mem_erase hp), waitsOn]
  rw [← Finset.add_sum_erase _ _ hmem, ← Finset.add_sum_erase _ (fun p => r.waitsOn j p) hmem,
    Finset.sum_congr rfl hcongr]
  have hself : r.waitsOn j k = (r.waiters k).count j := by simp [waitsOn, hd]
  rw [update_self, cond_true, zero_add, hself]
  exact (Nat.add_sub_cancel_left _ _).symm

/-- Finishing an action takes its outputs off the counters of its consumers and
itself off the counters of its waiters. -/
theorem Books.finishAction (h : Books g r) (hg : g.Wf hash) (hk : k < g.actions.length)
    (hd : r.done k = false) : Books g (r.finishAction g k) := by
  have hno : k ∉ r.finished.map Prod.fst := fun hin => by
    rw [(h.done_iff k).mpr hin] at hd; cases hd
  refine ⟨fun j => ?_, fun j => ?_, ?_, fun j => ?_, ?_, fun p hp => ?_⟩
  · have hcount : ∀ l : List ℕ, l.countP (r.blocked g) =
        l.countP ((r.finishAction g k).blocked g) + l.countP fun a => g.producer a = some k := by
      intro l
      induction l with
      | nil => rfl
      | cons a l ih =>
        simp only [List.countP_cons, ih]
        have hone : (if r.blocked g a then 1 else 0) =
            (if (r.finishAction g k).blocked g a then 1 else 0)
              + if g.producer a = some k then 1 else 0 := by
          unfold blocked
          cases hp : g.producer a with
          | none => simp [Run.finishAction]
          | some p =>
            by_cases hpk : p = k
            · subst hpk; simp [Run.finishAction, hd]
            · simp [Run.finishAction, hpk]
        simp only [decide_eq_true_eq] at hone ⊢
        omega
    simp only [Run.finishAction, countDown_waiting]
    rw [h.pending_eq, hg.count_released, hcount]
    simp [Run.finishAction]
  · simp only [Run.finishAction, countDown_waiting, waitsOn]
    rw [sum_waitsOn_finish hk hd, h.deferred_eq]
  · simp [Run.finishAction, h.completed_eq]
  · simp only [Run.finishAction, List.map_append, List.map_cons, List.map_nil, List.mem_append,
      List.mem_singleton]
    by_cases hj : j = k
    · subst hj; simp
    · simp [hj, h.done_iff]
  · simp only [Run.finishAction, List.map_append, List.map_cons, List.map_nil]
    refine List.nodup_append.mpr ⟨h.nodup, List.nodup_singleton k, ?_⟩
    rintro a ha b hb rfl
    rw [List.mem_singleton.mp hb] at ha
    exact hno ha
  · simp only [Run.finishAction] at hp ⊢
    by_cases hpk : p = k
    · subst hpk; simp
    · rw [update_of_ne hpk] at hp ⊢
      have := h.epoch_le p hp
      omega

/-- Storing digests of produced artifacts changes no counter. -/
theorem storeDigests_of_not_mem {digest : ℕ → Digest} {a : ℕ} :
    ∀ {outputs : List (ℕ × Digest)}, a ∉ outputs.map Prod.fst →
      storeDigests digest outputs a = digest a := by
  intro outputs
  induction outputs generalizing digest with
  | nil => intro _; rfl
  | cons x outputs ih =>
    intro h
    rw [List.map_cons, List.mem_cons, not_or] at h
    change storeDigests (update digest x.1 x.2) outputs a = digest a
    rw [ih h.2, update_of_ne h.1]

theorem storeDigests_of_producer (hg : g.Wf hash) {digest : ℕ → Digest} {ds : List Digest} {a : ℕ}
    (ha : g.producer a ≠ some k) :
    storeDigests digest ((g.produces k).zip ds) a = digest a := by
  refine storeDigests_of_not_mem fun hin => ha ((hg.mem_produces k a).mp ?_)
  obtain ⟨x, hx, rfl⟩ := List.mem_map.mp hin
  exact (List.of_mem_zip hx).1

theorem blocked_congr {s : Run} (hd : s.done = r.done)
    (hdig : ∀ a, g.producer a = none → s.digest a = r.digest a) : s.blocked g = r.blocked g := by
  funext a
  unfold blocked
  cases hp : g.producer a with
  | none => simp [hdig a hp]
  | some p => simp [hd]

/-- The books look at few fields. -/
theorem Books.congr (h : Books g r) {s : Run} (hpend : s.pending = r.pending)
    (hdef : s.deferred = r.deferred) (hdone : s.done = r.done) (hw : s.waiters = r.waiters)
    (hc : s.completed = r.completed) (hf : s.finished = r.finished)
    (he : s.doneEpoch = r.doneEpoch)
    (hdig : ∀ a, g.producer a = none → s.digest a = r.digest a) : Books g s := by
  refine ⟨fun j => ?_, fun j => ?_, ?_, fun j => ?_, ?_, fun p hp => ?_⟩
  · rw [hpend, blocked_congr hdone hdig, h.pending_eq]
  · rw [hdef, h.deferred_eq]
    simp only [waitsOn, hdone, hw]
  · rw [hc, hf, h.completed_eq]
  · rw [hdone, hf, h.done_iff]
  · rw [hf]; exact h.nodup
  · rw [hdone] at hp
    rw [he, hc]
    exact h.epoch_le p hp

theorem Books.storeDigests (h : Books g r) (hg : g.Wf hash) (ds : List Digest) :
    Books g { r with digest := Run.storeDigests r.digest ((g.produces k).zip ds) } :=
  h.congr rfl rfl rfl rfl rfl rfl rfl fun a ha =>
    storeDigests_of_producer hg (by rw [ha]; exact Option.some_ne_none k |>.symm)

theorem Books.beginCommit {env : Env} (h : Books g r) (hg : g.Wf hash) :
    Books g (r.beginCommit g env k) := by
  have hs := h.storeDigests (k := k) hg (r.flight k).digests
  unfold Run.beginCommit
  dsimp only
  split <;> exact hs.congr rfl rfl rfl rfl rfl rfl rfl fun _ _ => rfl

/-- No input of an action is missing once its counter is zero. -/
theorem Books.producers_done (h : Books g r) (hp : r.pending k = 0) {p : ℕ}
    (hpk : p ∈ g.declaredProducers k) : r.done p = true := by
  obtain ⟨a, ha, hap⟩ := List.mem_filterMap.mp hpk
  have hz := h.pending_eq k
  rw [hp] at hz
  have := List.countP_eq_zero.mp hz.symm a ha
  simpa [blocked, hap] using this

/-! ## Tokens -/

/-- How many of the places an action can be in it is in. -/
def tokens (r : Run) (k : ℕ) : ℕ :=
  r.ready.count k + r.jobs.count k + r.main.token k + min 1 (r.deferred k)
    + min 1 (r.pending k) + (r.done k).toNat

theorem tokens_finishAction (hd : r.done k = false) (j : ℕ) :
    (r.finishAction g k).tokens j = r.tokens j + if j = k then 1 else 0 := by
  have h1 := countDown_tokens j ((g.produces k).flatMap g.consumers) r.pending r.ready
  have h2 := countDown_tokens j (r.waiters k) r.deferred
    (countDown r.pending r.ready ((g.produces k).flatMap g.consumers)).2
  simp only [Lib.tokens] at h1 h2
  simp only [tokens, Run.finishAction]
  by_cases hj : j = k
  · subst hj
    simp only [update_self, hd, if_true, Bool.toNat_true, Bool.toNat_false]
    omega
  · simp only [update_of_ne hj, hj, if_false]
    omega

theorem beginCommit_main (g : Graph) (env : Env) (r : Run) (k : ℕ) :
    (r.beginCommit g env k).main = .commit k := by
  unfold Run.beginCommit; dsimp only; split <;> rfl

/-- The fields a commit leaves alone when it begins. -/
theorem beginCommit_frame (g : Graph) (env : Env) (r : Run) (k : ℕ) :
    ∃ digest discovery flight, r.beginCommit g env k =
      { r with digest := digest, discovery := discovery, flight := flight, main := .commit k } := by
  unfold Run.beginCommit; dsimp only; split <;> exact ⟨_, _, _, rfl⟩

theorem beginCommit_digest (g : Graph) (env : Env) (r : Run) (k : ℕ) :
    (r.beginCommit g env k).digest =
      storeDigests r.digest ((g.produces k).zip (r.flight k).digests) := by
  unfold Run.beginCommit; dsimp only; split <;> rfl

theorem beginCommit_flight_of_ne {env : Env} {j : ℕ} (h : j ≠ k) :
    (r.beginCommit g env k).flight j = r.flight j := by
  unfold Run.beginCommit; dsimp only; split
  · exact update_of_ne h _ _
  · rfl

theorem beginCommit_hit (g : Graph) (env : Env) (r : Run) (k j : ℕ) :
    ((r.beginCommit g env k).flight j).hit = (r.flight j).hit := by
  by_cases h : j = k
  · subst h
    unfold Run.beginCommit; dsimp only; split <;> simp
  · rw [beginCommit_flight_of_ne h]

theorem beginCommit_epoch (g : Graph) (env : Env) (r : Run) (k j : ℕ) :
    ((r.beginCommit g env k).flight j).epoch = (r.flight j).epoch := by
  by_cases h : j = k
  · subst h
    unfold Run.beginCommit; dsimp only; split <;> simp
  · rw [beginCommit_flight_of_ne h]

/-- The commit takes the rows of the attempt or leaves them. -/
theorem beginCommit_rows (g : Graph) (env : Env) (r : Run) (k j : ℕ) :
    ((r.beginCommit g env k).flight j).rows = [] ∨
      ((r.beginCommit g env k).flight j).rows = (r.flight j).rows := by
  by_cases h : j = k
  · subst h
    unfold Run.beginCommit; dsimp only; split
    · exact .inl (by simp)
    · exact .inr rfl
  · rw [beginCommit_flight_of_ne h]
    exact .inr rfl

/-- The rows a commit keeps: those under roots that are not pinned. -/
def keptRows (g : Graph) (r : Run) (k : ℕ) : List Obs :=
  (r.flight k).rows.filter fun o => !g.roots.pins o.path.root

theorem beginCommit_under {env : Env} (h : g.actionKind k = some .discovered) :
    ((r.beginCommit g env k).flight k).under = r.keptRows g k := by
  simp [Run.beginCommit, h, keptRows]

theorem beginCommit_under_of_not {env : Env} (h : g.actionKind k ≠ some .discovered) (j : ℕ) :
    ((r.beginCommit g env k).flight j).under = (r.flight j).under := by
  simp [Run.beginCommit, h]

/-- The table after a commit began: the old pathset, or the kept rows. -/
theorem beginCommit_discovery {env : Env} {key : Digest} {set : Pathset}
    (h : (r.beginCommit g env k).discovery key = some set) :
    r.discovery key = some set ∨
      g.actionKind k = some .discovered ∧ key = (r.flight k).key ∧ set.obs = r.keptRows g k := by
  unfold Run.beginCommit at h
  dsimp only at h
  split at h
  · rename_i hk
    by_cases hkey : key = (r.flight k).key
    · subst hkey
      simp only [update_self, Option.some.injEq] at h
      exact .inr ⟨hk, rfl, by rw [← h, keptRows]⟩
    · simp only [update_of_ne hkey] at h
      exact .inl h
  · exact .inl h

theorem keptRows_producers {p : ℕ} (h : p ∈ (r.keptRows g k).flatMap g.obsProducers) :
    p ∈ r.reportedProducers g k := by
  obtain ⟨o, ho, hpo⟩ := List.mem_flatMap.mp h
  exact List.mem_flatMap.mpr ⟨o, (List.mem_filter.mp ho).1, hpo⟩

theorem tokens_beginCommit {env : Env} (hm : r.main.action = none) (j : ℕ) :
    (r.beginCommit g env k).tokens j = r.tokens j + if j = k then 1 else 0 := by
  obtain ⟨_, _, _, h⟩ := beginCommit_frame g env r k
  rw [h]
  simp only [tokens, Main.token_of_none hm, Main.token_of_some (m := .commit k) rfl]
  omega

theorem tokens_defer {ps : List ℕ} (hk : r.deferred k = 0) (hb : r.blockers k ps ≠ []) (j : ℕ) :
    (r.defer k ps).tokens j = r.tokens j + if j = k then 1 else 0 := by
  have hpos := List.length_pos_iff.mpr hb
  simp only [tokens, Run.defer]
  by_cases hj : j = k
  · subst hj
    simp only [update_self, hk, if_true]
    omega
  · simp [hj]

theorem tokens_submit (j : ℕ) : (r.submit k).tokens j = r.tokens j + if j = k then 1 else 0 := by
  simp only [tokens, submit, List.count_cons, beq_iff_eq, eq_comm (a := k)]
  omega

theorem tokens_push (j : ℕ) :
    ({ r with ready := k :: r.ready } : Run).tokens j = r.tokens j + if j = k then 1 else 0 := by
  simp only [tokens, List.count_cons, beq_iff_eq, eq_comm (a := k)]
  omega

end Run
end Spn.Dag
