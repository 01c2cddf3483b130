import Spn.Dag.Books

/-! # The invariant of the run loop

The books, the tokens, and what the rows of a job say: the producers of every
row a job was admitted with have finished, or are the action the main thread
is committing. One lemma for each kind of step, and from them the invariant of
every reachable state.
-/
namespace Spn.Dag

open Spn.Lib Function

namespace Run

variable {g : Graph} {env : Env} {r : Run} {k : ℕ} {W : Type}

/-- Finished, or about to be by the commit that is going on. -/
def Settled (r : Run) (p : ℕ) : Prop := r.done p = true ∨ r.main.action = some p

/-- The producers of the rows an action is restored or committed under. -/
def underProducers (g : Graph) (r : Run) (k : ℕ) : List ℕ :=
  (r.flight k).under.flatMap g.obsProducers

/-- A log of finished actions in which every action comes after the producers
of its inputs and the other producers of its rows. -/
def Ordered (g : Graph) (log : List (ℕ × List Obs)) : Prop :=
  ∀ pre k rows post, log = pre ++ (k, rows) :: post →
    (∀ p ∈ g.declaredProducers k, p ∈ pre.map Prod.fst) ∧
      ∀ p ∈ rows.flatMap g.obsProducers, p ≠ k → p ∈ pre.map Prod.fst

theorem Ordered.snoc {log : List (ℕ × List Obs)} (h : Ordered g log) {rows : List Obs}
    (hd : ∀ p ∈ g.declaredProducers k, p ∈ log.map Prod.fst)
    (ho : ∀ p ∈ rows.flatMap g.obsProducers, p ≠ k → p ∈ log.map Prod.fst) :
    Ordered g (log ++ [(k, rows)]) := by
  intro pre j js post heq
  rcases List.append_eq_append_iff.mp heq with ⟨rest, hpre, hrest⟩ | ⟨rest, hlog, hrest⟩
  · cases rest with
    | nil =>
      simp only [List.append_nil, List.nil_append, List.cons.injEq, Prod.mk.injEq] at hpre hrest
      obtain ⟨⟨rfl, rfl⟩, -⟩ := hrest
      subst hpre
      exact ⟨hd, ho⟩
    | cons x rest =>
      simp at hrest
  · cases rest with
    | nil =>
      simp only [List.append_nil, List.nil_append, List.cons.injEq, Prod.mk.injEq] at hlog hrest
      obtain ⟨⟨rfl, rfl⟩, -⟩ := hrest
      subst hlog
      exact ⟨hd, ho⟩
    | cons x rest =>
      obtain ⟨rfl, -⟩ := List.cons.inj hrest
      exact h pre j js rest hlog

/-- What holds of the rows. The clauses on jobs speak of runs that have not
failed, since a failed run only drops its jobs. -/
structure Rows (g : Graph) (env : Env) (r : Run) : Prop where
  remembered : r.err = none → ∀ k ∈ r.jobs, r.phase k = .queued ∨ r.phase k = .looking →
    ∀ p ∈ r.rememberedProducers g env k, p ≠ k → r.Settled p
  under : r.err = none → ∀ k ∈ r.jobs, ∀ p ∈ r.underProducers g k, p ≠ k → r.Settled p
  commit : ∀ k, r.main.action = some k → ∀ p ∈ r.underProducers g k, p ≠ k → r.done p = true
  commit_err : ∀ k, r.main.action = some k → r.err = none
  parked : ∀ k, r.parked k = true → g.actionKind k = some .discovered
  ordered : Ordered g r.finished

/-- What holds of every reachable state. -/
structure Inv (g : Graph) (env : Env) (r : Run) : Prop extends Books g r, Rows g env r where
  inFlight_eq : r.inFlight = r.jobs.length
  tokens_le : ∀ k, r.tokens k ≤ 1
  tokens_lt : ∀ k, 0 < r.tokens k → k < g.actions.length
  tokens_live : r.err = none → ∀ k < g.actions.length, r.tokens k = 1

/-! ## One place at a time -/

theorem job_alone (h : r.tokens k ≤ 1) (hk : k ∈ r.jobs) :
    r.ready.count k = 0 ∧ r.jobs.count k = 1 ∧ r.main.token k = 0 ∧ r.deferred k = 0 ∧
      r.pending k = 0 ∧ r.done k = false := by
  have := List.count_pos_iff.mpr hk
  unfold tokens at h
  have hd : (r.done k).toNat = 0 := by omega
  exact ⟨by omega, by omega, by omega, by omega, by omega, by simpa using hd⟩

theorem ready_alone (h : r.tokens k ≤ 1) (hk : k ∈ r.ready) :
    r.ready.count k = 1 ∧ r.jobs.count k = 0 ∧ r.main.token k = 0 ∧ r.deferred k = 0 ∧
      r.pending k = 0 ∧ r.done k = false := by
  have := List.count_pos_iff.mpr hk
  unfold tokens at h
  have hd : (r.done k).toNat = 0 := by omega
  exact ⟨by omega, by omega, by omega, by omega, by omega, by simpa using hd⟩

theorem commit_alone (h : r.tokens k ≤ 1) (hk : r.main.action = some k) :
    r.ready.count k = 0 ∧ r.jobs.count k = 0 ∧ r.deferred k = 0 ∧ r.pending k = 0 ∧
      r.done k = false := by
  have := Main.token_of_some hk k
  unfold tokens at h
  have hd : (r.done k).toNat = 0 := by simp only [if_true] at this; omega
  simp only [if_true] at this
  exact ⟨by omega, by omega, by omega, by omega, by simpa using hd⟩

theorem tokens_pos_of_mem_jobs (hk : k ∈ r.jobs) : 0 < r.tokens k := by
  have := List.count_pos_iff.mpr hk
  unfold tokens
  omega

theorem tokens_pos_of_mem_ready (hk : k ∈ r.ready) : 0 < r.tokens k := by
  have := List.count_pos_iff.mpr hk
  unfold tokens
  omega

theorem tokens_pos_of_commit (hk : r.main.action = some k) : 0 < r.tokens k := by
  have := Main.token_of_some hk k
  simp only [if_true] at this
  unfold tokens
  omega

/-! ## Weak keys stand still -/

/-- The weak key of an action whose inputs are all there does not change when
an unfinished action stores its digests. -/
theorem weakKey_storeDigests (env : Env) {hash : List UInt8 → Digest} (hg : g.Wf hash) (hb : Books g r)
    (hk : r.pending k = 0) {j : ℕ} (hj : r.done j = false) (ds : List Digest) :
    weakKey env.hash g (Run.storeDigests r.digest ((g.produces j).zip ds)) k =
      weakKey env.hash g r.digest k := by
  refine weakKey_congr _ fun a ha => storeDigests_of_producer hg fun hp => ?_
  have := hb.producers_done hk (List.mem_filterMap.mpr ⟨a, ha, hp⟩)
  rw [hj] at this
  cases this

/-! ## Steps of the workers -/

theorem Inv.frame (h : Inv g env r) {flight : ℕ → Flight} {phase : ℕ → Phase} {wrote : ℕ → Bool}
    {reported : List (ℕ × List Obs)}
    (hrem : r.err = none → ∀ k ∈ r.jobs, phase k = .queued ∨ phase k = .looking →
      ∀ p ∈ r.rememberedProducers g env k, p ≠ k → r.Settled p)
    (hund : r.err = none → ∀ k ∈ r.jobs, ∀ p ∈ (flight k).under.flatMap g.obsProducers,
      p ≠ k → r.Settled p)
    (hmain : ∀ k, r.main.action = some k → (flight k).under = (r.flight k).under) :
    Inv g env { r with
      flight := flight, phase := phase, wrote := wrote, reported := reported } where
  toBooks := h.toBooks.congr rfl rfl rfl rfl rfl rfl rfl fun _ _ => rfl
  toRows :=
    { remembered := hrem
      under := hund
      commit := fun k hk p hp hne => by
        have hp' : p ∈ (flight k).under.flatMap g.obsProducers := hp
        rw [hmain k hk] at hp'
        exact h.commit k hk p hp' hne
      commit_err := h.commit_err
      parked := h.parked
      ordered := h.ordered }
  inFlight_eq := h.inFlight_eq
  tokens_le := h.tokens_le
  tokens_lt := h.tokens_lt
  tokens_live := h.tokens_live

theorem not_committing (h : r.tokens k ≤ 1) (hk : k ∈ r.jobs) {j : ℕ}
    (hj : r.main.action = some j) : j ≠ k := by
  rintro rfl
  have hz := (job_alone h hk).2.2.1
  rw [Main.token_of_some hj, if_pos rfl] at hz
  cases hz

/-- A worker step that keeps the rows of its job. -/
theorem Inv.frame_job (h : Inv g env r) (hk : k ∈ r.jobs) {f : Flight} {q : Phase}
    (wrote : ℕ → Bool) (reported : List (ℕ × List Obs))
    (hphase : q = .queued ∨ q = .looking → r.phase k = .queued ∨ r.phase k = .looking)
    (hunder : r.err = none → ∀ p ∈ f.under.flatMap g.obsProducers, p ≠ k → r.Settled p) :
    Inv g env { r with
      flight := update r.flight k f, phase := update r.phase k q
      wrote := wrote, reported := reported } := by
  refine h.frame (fun herr j hj hph => ?_) (fun herr j hj p hp hne => ?_) (fun j hj => ?_)
  · by_cases hjk : j = k
    · subst hjk
      rw [update_self] at hph
      exact h.remembered herr j hj (hphase hph)
    · rw [update_of_ne hjk] at hph
      exact h.remembered herr j hj hph
  · by_cases hjk : j = k
    · subst hjk
      rw [update_self] at hp
      exact hunder herr p hp hne
    · rw [update_of_ne hjk] at hp
      exact h.under herr j hj p hp hne
  · rw [update_of_ne (not_committing (h.tokens_le k) hk hj)]

theorem Inv.workerBegin (h : Inv g env r) (hk : r.At k .queued) : Inv g env (r.workerBegin k) :=
  h.frame_job hk.1 r.wrote r.reported (fun _ => .inl hk.2)
    fun herr => h.under herr k hk.1

/-- The rows `lookup` asks the cache with are those the job was admitted with. -/
theorem Inv.workerLookup (h : Inv g env r) (hk : r.At k .looking) :
    Inv g env (r.workerLookup g env k) := by
  refine h.frame_job hk.1 r.wrote r.reported nofun fun herr => ?_
  have old := h.under herr k hk.1
  split
  · exact old
  · rename_i hd
    cases hset : r.discovery (weakKey env.hash g r.digest k) with
    | none => exact old
    | some set =>
      have hrem := h.remembered herr k hk.1 (.inr hk.2)
      simpa [rememberedProducers, Run.remembered, hd, hset] using hrem
  · exact old

theorem Inv.workerPhase (h : Inv g env r) (hk : k ∈ r.jobs) {phase : Phase}
    (hphase : phase ≠ .queued ∧ phase ≠ .looking) :
    Inv g env { r with phase := update r.phase k phase } := by
  have := h.frame_job (f := r.flight k) (q := phase) hk r.wrote r.reported
    (fun he => absurd he (not_or.mpr hphase)) fun herr => h.under herr k hk
  rwa [update_eq_self] at this

theorem Inv.workerRestored (h : Inv g env r) (hk : k ∈ r.jobs) (ok : Bool) :
    Inv g env (r.workerRestored k ok) := by
  cases ok with
  | true =>
    exact h.frame_job hk r.wrote r.reported nofun
      fun herr => h.under herr k hk
  | false => exact h.workerPhase hk ⟨nofun, nofun⟩

theorem Inv.workerExecute (h : Inv g env r) (hk : k ∈ r.jobs) (err : Option Err) (rows : List Obs)
    (digests : List Digest) : Inv g env (r.workerExecute k err rows digests) :=
  h.frame_job hk r.wrote _ nofun fun herr => h.under herr k hk

/-- Storing the digests of an action that has not finished changes no row of a
job that has its inputs. -/
theorem rememberedProducers_storeDigests {hash : List UInt8 → Digest} (hg : g.Wf hash)
    (hb : Books g r) (hk : r.pending k = 0) {j : ℕ} (hj : r.done j = false) (ds : List Digest) :
    ({ r with digest := Run.storeDigests r.digest ((g.produces j).zip ds) } :
      Run).rememberedProducers g env k = r.rememberedProducers g env k := by
  simp only [rememberedProducers, Run.remembered, weakKey_storeDigests env hg hb hk hj ds]

theorem Inv.workerRestore {hash : List UInt8 → Digest} (h : Inv g env r) (hg : g.Wf hash)
    (hk : k ∈ r.jobs) (outputs : List Digest) : Inv g env (r.workerRestore g k outputs) := by
  have hd := (job_alone (h.tokens_le k) hk).2.2.2.2.2
  have hstore : Inv g env { r with
      digest := Run.storeDigests r.digest ((g.produces k).zip outputs) } :=
    { toBooks := h.toBooks.storeDigests hg outputs
      toRows :=
        { remembered := fun herr j hj hph p hp => by
            have hpend := (job_alone (h.tokens_le j) hj).2.2.2.2.1
            rw [rememberedProducers_storeDigests hg h.toBooks hpend hd] at hp
            exact h.remembered herr j hj hph p hp
          under := h.under
          commit := h.commit
          commit_err := h.commit_err
          parked := h.parked
          ordered := h.ordered }
      inFlight_eq := h.inFlight_eq
      tokens_le := h.tokens_le
      tokens_lt := h.tokens_lt
      tokens_live := h.tokens_live }
  have := hstore.frame_job (k := k) (f := r.flight k) (q := .settling) hk
    (update r.wrote k false) r.reported nofun
    fun herr => hstore.under herr k hk
  rwa [update_eq_self] at this

/-! ## Steps of the main thread -/

theorem Settled.mono {s : Run} (hdone : ∀ p, r.done p = true → s.done p = true)
    (hmain : ∀ p, r.main.action = some p → s.Settled p) {p : ℕ} (h : r.Settled p) : s.Settled p :=
  h.elim (fun hd => .inl (hdone p hd)) (hmain p)

theorem done_of_settled (hm : r.main.action = none) {p : ℕ} (h : r.Settled p) : r.done p = true :=
  h.resolve_right (by rw [hm]; nofun)

/-- Finishing an action whose inputs and rows are all there keeps the log in
order. -/
theorem Rows.finishAction (h : Rows g env r) (hb : Books g r) (hp : r.pending k = 0)
    (hund : ∀ p ∈ r.underProducers g k, p ≠ k → r.done p = true) (hm : r.main.action = none) :
    Rows g env (r.finishAction g k) := by
  have hdone : ∀ p, r.done p = true → (r.finishAction g k).done p = true := by
    intro p hpd
    by_cases hpk : p = k
    · subst hpk; simp [Run.finishAction]
    · simp [Run.finishAction, update_of_ne hpk, hpd]
  have hset : ∀ {p}, r.Settled p → (r.finishAction g k).Settled p := fun hs =>
    hs.mono hdone fun p hpm => by rw [hm] at hpm; cases hpm
  have hidle : ∀ j, (r.finishAction g k).main.action ≠ some j := by
    intro j hj
    rw [show (r.finishAction g k).main = r.main from rfl, hm] at hj
    cases hj
  refine ⟨fun herr j hj hph p hpr hne => hset (h.remembered herr j hj hph p hpr hne),
    fun herr j hj p hpr hne => hset (h.under herr j hj p hpr hne),
    fun j hj => absurd hj (hidle j), fun j hj => absurd hj (hidle j), h.parked, ?_⟩
  refine h.ordered.snoc (fun p hpd => ?_) (fun p hpo hne => ?_)
  · exact (hb.done_iff p).mp (hb.producers_done hp hpd)
  · exact (hb.done_iff p).mp (hund p hpo hne)

/-- A commit that begins stores a pathset whose rows are all settled. -/
theorem Rows.beginCommit {hash : List UInt8 → Digest} (h : Rows g env r) (hg : g.Wf hash)
    (hb : Books g r) (hjob : ∀ j ∈ r.jobs, j ≠ k ∧ r.pending j = 0) (hd : r.done k = false)
    (hm : r.main.action = none) (herr : r.err = none)
    (hrows : g.actionKind k = some .discovered → r.blockers k (r.reportedProducers g k) = [])
    (hund : g.actionKind k ≠ some .discovered → ∀ p ∈ r.underProducers g k, p ≠ k →
      r.done p = true) :
    Rows g env (r.beginCommit g env k) := by
  obtain ⟨_, disc, flight, he⟩ := beginCommit_frame g env r k
  have hdig := beginCommit_digest g env r k
  have hset : ∀ {p}, r.Settled p → (r.beginCommit g env k).Settled p := fun hs => by
    rw [he]
    exact .inl (done_of_settled hm hs)
  have hnew : g.actionKind k = some .discovered → ∀ p ∈ (r.keptRows g k).flatMap g.obsProducers,
      p ≠ k → r.done p = true := fun hk p hp =>
    blockers_eq_nil.mp (hrows hk) p (keptRows_producers hp)
  have hjobs : ∀ j ∈ (r.beginCommit g env k).jobs, j ∈ r.jobs := fun j hj => by rwa [he] at hj
  refine ⟨fun _ j hj hph p hp hne => ?_, fun _ j hj p hp hne => ?_,
    fun j hj p hp hne => ?_, fun _ _ => by rwa [he], ?_, ?_⟩
  · obtain ⟨hjk, hpend⟩ := hjob j (hjobs j hj)
    have hwk := weakKey_storeDigests env hg hb hpend hd (r.flight k).digests
    have hph' : r.phase j = .queued ∨ r.phase j = .looking := by rwa [he] at hph
    by_cases hdj : g.actionKind j = some .discovered
    · cases hfound : (r.beginCommit g env k).discovery (weakKey env.hash g r.digest j) with
      | none => simp [rememberedProducers, Run.remembered, hdj, hdig, hwk, hfound] at hp
      | some set =>
        have hp' : p ∈ set.obs.flatMap g.obsProducers := by
          simpa only [rememberedProducers, Run.remembered, hdj, hdig, hwk, hfound, if_true] using hp
        rcases beginCommit_discovery hfound with hold | ⟨hk, -, hobs⟩
        · refine hset (h.remembered herr j (hjobs j hj) hph' p ?_ hne)
          simpa only [rememberedProducers, Run.remembered, hdj, hold, if_true] using hp'
        · -- the job shares its weak key with the action that commits
          rw [hobs] at hp'
          by_cases hpk : p = k
          · right
            rw [hpk, beginCommit_main]
            rfl
          · exact hset (.inl (hnew hk p hp' hpk))
    · simp [rememberedProducers, Run.remembered, hdj] at hp
  · obtain ⟨hjk, -⟩ := hjob j (hjobs j hj)
    rw [underProducers, beginCommit_flight_of_ne hjk] at hp
    exact hset (h.under herr j (hjobs j hj) p hp hne)
  · rw [beginCommit_main] at hj
    obtain rfl : k = j := Option.some.inj hj
    have hgoal : r.done p = true := by
      by_cases hk : g.actionKind k = some .discovered
      · rw [underProducers, beginCommit_under hk] at hp
        exact hnew hk p hp hne
      · rw [underProducers, beginCommit_under_of_not hk] at hp
        exact hund hk p hp hne
    rwa [he]
  · rw [he]; exact h.parked
  · rw [he]; exact h.ordered

/-- The rows of the jobs that stay when one is handed back, and of the actions
that stay when one is popped. -/
theorem Rows.drop (h : Rows g env r) {s : Run} (hjobs : ∀ j ∈ s.jobs, j ∈ r.jobs)
    (herr : s.err = none → r.err = none) (hmain : s.main.action = none)
    (hold : r.main.action = none) (hdone : s.done = r.done) (hflight : s.flight = r.flight)
    (hphase : s.phase = r.phase) (hdisc : s.discovery = r.discovery) (hdig : s.digest = r.digest)
    (hparked : ∀ j, s.parked j = true → g.actionKind j = some .discovered)
    (hfin : s.finished = r.finished) : Rows g env s := by
  have hset : ∀ {p}, r.Settled p → s.Settled p := fun hs =>
    .inl (by rw [hdone]; exact done_of_settled hold hs)
  refine ⟨fun he j hj hph p hp hne => hset (h.remembered (herr he) j (hjobs j hj) ?_ p ?_ hne),
    fun he j hj p hp hne => hset (h.under (herr he) j (hjobs j hj) p ?_ hne),
    fun j hj => ?_, fun j hj => ?_, hparked, ?_⟩
  · rwa [hphase] at hph
  · simpa only [rememberedProducers, Run.remembered, hdisc, hdig] using hp
  · simpa only [underProducers, hflight] using hp
  · rw [hmain] at hj; cases hj
  · rw [hmain] at hj; cases hj
  · rw [hfin]; exact h.ordered

/-- What a turn starts from once it has popped an action or taken a job. -/
structure Popped (g : Graph) (env : Env) (r : Run) (k : ℕ) : Prop
    extends Books g r, Rows g env r where
  free : r.tokens k = 0
  lt : k < g.actions.length
  loop : r.main = .loop
  inFlight_eq : r.inFlight = r.jobs.length
  tokens_le : ∀ j, r.tokens j ≤ 1
  tokens_lt : ∀ j, 0 < r.tokens j → j < g.actions.length
  tokens_live : r.err = none → ∀ j < g.actions.length, j ≠ k → r.tokens j = 1

theorem Popped.idle (h : Popped g env r k) : r.main.action = none := by rw [h.loop]; rfl

theorem Popped.zero (h : Popped g env r k) :
    r.deferred k = 0 ∧ r.pending k = 0 ∧ r.done k = false ∧ k ∉ r.jobs := by
  have hf := h.free
  unfold tokens at hf
  have hd : (r.done k).toNat = 0 := by omega
  exact ⟨by omega, by omega, by simpa using hd, List.count_eq_zero.mp (by omega)⟩

theorem Popped.jobs (h : Popped g env r k) : ∀ j ∈ r.jobs, j ≠ k ∧ r.pending j = 0 := by
  intro j hj
  refine ⟨?_, (job_alone (h.tokens_le j) hj).2.2.2.2.1⟩
  rintro rfl
  exact h.zero.2.2.2 hj

/-- A step that gives the popped action its token back restores the invariant. -/
theorem Popped.inv (h : Popped g env r k) {s : Run} (hb : Books g s) (hr : Rows g env s)
    (hin : s.inFlight = s.jobs.length) (herr : s.err = none → r.err = none)
    (htok : ∀ j, s.tokens j = r.tokens j + if j = k then 1 else 0) : Inv g env s where
  toBooks := hb
  toRows := hr
  inFlight_eq := hin
  tokens_le j := by
    rw [htok]
    split
    · rename_i hj; subst hj; rw [h.free]
    · exact h.tokens_le j
  tokens_lt j hj := by
    rw [htok] at hj
    by_cases hjk : j = k
    · rw [hjk]; exact h.lt
    · simp only [hjk, if_false] at hj
      exact h.tokens_lt j hj
  tokens_live he j hj := by
    rw [htok]
    split
    · rename_i hjk; subst hjk; rw [h.free]
    · rename_i hjk; exact h.tokens_live (herr he) j hj hjk

variable {hash : List UInt8 → Digest}

theorem flatMap_obsProducers_lt (hg : g.Wf hash) (rows : List Obs) :
    ∀ p ∈ rows.flatMap g.obsProducers, p < g.actions.length := by
  intro p hp
  obtain ⟨o, -, ho⟩ := List.mem_flatMap.mp hp
  exact hg.obsProducers_lt ho

theorem rememberedProducers_lt (hg : g.Wf hash) :
    ∀ p ∈ r.rememberedProducers g env k, p < g.actions.length := by
  unfold rememberedProducers
  split
  · exact flatMap_obsProducers_lt hg _
  · nofun

theorem Popped.unpark (h : Popped g env r k) : Popped g env (r.unpark k) k where
  toBooks := h.toBooks.congr rfl rfl rfl rfl rfl rfl rfl fun _ _ => rfl
  toRows := h.toRows.drop (fun _ hj => hj) id h.idle h.idle rfl rfl rfl rfl rfl
    (fun j hj => by
      by_cases hjk : j = k
      · subst hjk; simp [Run.unpark] at hj
      · exact h.parked j (by simpa [Run.unpark, update_of_ne hjk] using hj)) rfl
  free := h.free
  lt := h.lt
  loop := h.loop
  inFlight_eq := h.inFlight_eq
  tokens_le := h.tokens_le
  tokens_lt := h.tokens_lt
  tokens_live := h.tokens_live

theorem Popped.defer (h : Popped g env r k) {ps : List ℕ} (hps : ∀ p ∈ ps, p < g.actions.length)
    (hb : r.blockers k ps ≠ []) : Inv g env (r.defer k ps) :=
  h.inv (h.toBooks.defer hps)
    (h.toRows.drop (fun _ hj => hj) id h.idle h.idle rfl rfl rfl rfl rfl h.parked rfl)
    h.inFlight_eq id (tokens_defer h.zero.1 hb)

theorem Popped.beginCommit (h : Popped g env r k) (hg : g.Wf hash) (herr : r.err = none)
    (hrows : g.actionKind k = some .discovered → r.blockers k (r.reportedProducers g k) = [])
    (hund : g.actionKind k ≠ some .discovered → ∀ p ∈ r.underProducers g k, p ≠ k →
      r.done p = true) : Inv g env (r.beginCommit g env k) := by
  obtain ⟨_, _, _, he⟩ := beginCommit_frame g env r k
  refine h.inv (h.toBooks.beginCommit hg) (h.toRows.beginCommit hg h.toBooks h.jobs h.zero.2.2.1
    h.idle herr hrows hund) ?_ ?_ (tokens_beginCommit h.idle)
  · rw [he]; exact h.inFlight_eq
  · rw [he]; exact id

theorem Popped.submit (h : Popped g env r k)
    (hb : r.blockers k (r.rememberedProducers g env k) = []) : Inv g env (r.submit k) := by
  have hset : ∀ {p}, r.Settled p → (r.submit k).Settled p := id
  refine h.inv (h.toBooks.congr rfl rfl rfl rfl rfl rfl rfl fun _ _ => rfl)
    ⟨fun he j hj hph p hp hne => ?_, fun he j hj p hp hne => ?_, fun j hj => ?_, h.commit_err,
      h.parked, h.ordered⟩ (by simp [Run.submit, h.inFlight_eq]) id tokens_submit
  · by_cases hjk : j = k
    · subst hjk
      exact .inl (blockers_eq_nil.mp hb p hp hne)
    · have hj' : j ∈ r.jobs := (List.mem_cons.mp hj).resolve_left hjk
      simp only [Run.submit, update_of_ne hjk] at hph
      exact hset (h.remembered he j hj' hph p hp hne)
  · by_cases hjk : j = k
    · subst hjk
      simp [underProducers, Run.submit] at hp
    · have hj' : j ∈ r.jobs := (List.mem_cons.mp hj).resolve_left hjk
      simp only [underProducers, Run.submit, update_of_ne hjk] at hp
      exact hset (h.under he j hj' p hp hne)
  · rw [show (r.submit k).main = r.main from rfl, h.idle] at hj
    cases hj

theorem Popped.dispatched (h : Popped g env r k) (hg : g.Wf hash) (herr : r.err = none) {s : Run}
    (hs : Dispatched g env r k s) : Inv g env s := by
  cases hs with
  | stillParked _ hb => exact h.defer (flatMap_obsProducers_lt hg _) hb
  | commit hp hb _ =>
    exact h.unpark.beginCommit hg herr (fun _ => hb) fun hk => absurd (h.parked k hp) hk
  | deferred _ hb => exact h.unpark.defer (rememberedProducers_lt hg) hb
  | submitted _ hb => exact h.unpark.submit hb

theorem Popped.finishAction (h : Popped g env r k) (hg : g.Wf hash)
    (hund : ∀ p ∈ r.underProducers g k, p ≠ k → r.done p = true) :
    Inv g env (r.finishAction g k) :=
  h.inv (h.toBooks.finishAction hg h.lt h.zero.2.2.1)
    (h.toRows.finishAction h.toBooks h.zero.2.1 hund h.idle) h.inFlight_eq id
    (tokens_finishAction h.zero.2.2.1)

theorem Popped.completed (h : Popped g env r k) (hg : g.Wf hash)
    (hund : r.err = none → ∀ p ∈ r.underProducers g k, p ≠ k → r.done p = true) {s : Run}
    (hs : Completed g env r k s) : Inv g env s := by
  cases hs with
  | failed e =>
    exact
      { toBooks := h.toBooks.congr rfl rfl rfl rfl rfl rfl rfl fun _ _ => rfl
        toRows := h.toRows.drop (fun _ hj => hj) nofun h.idle h.idle rfl rfl rfl rfl rfl
          h.parked rfl
        inFlight_eq := h.inFlight_eq
        tokens_le := h.tokens_le
        tokens_lt := h.tokens_lt
        tokens_live := nofun }
  | hit herr _ => exact h.finishAction hg (hund herr)
  | parked _ hk hb =>
    have hd := h.defer (flatMap_obsProducers_lt hg (r.flight k).rows) hb
    exact
      { toBooks := hd.toBooks.congr rfl rfl rfl rfl rfl rfl rfl fun _ _ => rfl
        toRows := hd.toRows.drop (fun _ hj => hj) id h.idle h.idle rfl rfl rfl rfl rfl
          (fun j hj => by
            by_cases hjk : j = k
            · rw [hjk]; exact hk
            · exact h.parked j (by simpa [update_of_ne hjk, Run.defer] using hj)) rfl
        inFlight_eq := hd.inFlight_eq
        tokens_le := hd.tokens_le
        tokens_lt := hd.tokens_lt
        tokens_live := hd.tokens_live }
  | requeued =>
    exact h.inv (h.toBooks.congr rfl rfl rfl rfl rfl rfl rfl fun _ _ => rfl)
      (h.toRows.drop (fun _ hj => hj) id h.idle h.idle rfl rfl rfl rfl rfl h.parked rfl)
      h.inFlight_eq id tokens_push
  | commit herr hrows =>
    exact h.beginCommit hg herr (fun hk => (hrows hk).1) fun _ => hund herr

/-! ## Turns -/

theorem headOfTurn_err {cancel : Bool} (h : (r.headOfTurn cancel).err = none) : r.err = none := by
  unfold headOfTurn at h
  dsimp only at h
  split at h
  · cases h
  · exact h

theorem Inv.headOfTurn (h : Inv g env r) (hl : r.main = .loop) (cancel : Bool) :
    Inv g env (r.headOfTurn cancel) where
  toBooks := h.toBooks.congr rfl rfl rfl rfl rfl rfl rfl fun _ _ => rfl
  toRows := h.toRows.drop (fun _ hj => hj) headOfTurn_err (by simp [Run.headOfTurn, hl, Main.action])
    (by rw [hl]; rfl) rfl rfl rfl rfl rfl h.parked rfl
  inFlight_eq := h.inFlight_eq
  tokens_le := h.tokens_le
  tokens_lt := h.tokens_lt
  tokens_live he := h.tokens_live (headOfTurn_err he)

/-- The state in which a turn dispatches. -/
theorem Inv.pop (h : Inv g env r) (hl : r.main = .loop) {rest : List ℕ} (hr : r.ready = k :: rest) :
    Popped g env { r with ready := rest } k := by
  have hmem : k ∈ r.ready := by rw [hr]; exact List.mem_cons_self
  have hm : r.main.action = none := by rw [hl]; rfl
  have htok : ∀ j, r.tokens j =
      ({ r with ready := rest } : Run).tokens j + if j = k then 1 else 0 := by
    intro j
    rw [← tokens_push]
    simp [tokens, hr]
  have hk := htok k
  have hk1 := h.tokens_le k
  simp only [if_true] at hk
  exact
    { toBooks := h.toBooks.congr rfl rfl rfl rfl rfl rfl rfl fun _ _ => rfl
      toRows := h.toRows.drop (fun _ hj => hj) id hm hm rfl rfl rfl rfl rfl h.parked rfl
      free := by omega
      lt := h.tokens_lt k (tokens_pos_of_mem_ready hmem)
      loop := hl
      inFlight_eq := h.inFlight_eq
      tokens_le := fun j => by have := htok j; have := h.tokens_le j; omega
      tokens_lt := fun j hj => h.tokens_lt j (by have := htok j; omega)
      tokens_live := fun he j hj hjk => by
        have h1 := htok j
        have h2 := h.tokens_live he j hj
        simp only [hjk, if_false] at h1
        omega }

/-- The state in which a turn completes a job. -/
theorem Inv.take (h : Inv g env r) (hl : r.main = .loop) (hk : k ∈ r.jobs) :
    Popped g env { r with jobs := r.jobs.erase k, inFlight := r.inFlight - 1 } k := by
  have hm : r.main.action = none := by rw [hl]; rfl
  have htok : ∀ j, r.tokens j =
      ({ r with jobs := r.jobs.erase k, inFlight := r.inFlight - 1 } : Run).tokens j +
        if j = k then 1 else 0 := by
    intro j
    have hpos := List.count_pos_iff.mpr hk
    simp only [tokens]
    by_cases hj : j = k
    · subst hj
      rw [List.count_erase_self, if_pos rfl]
      omega
    · rw [List.count_erase_of_ne hj, if_neg hj]
      omega
  have hk0 := htok k
  have hk1 := h.tokens_le k
  simp only [if_true] at hk0
  exact
    { toBooks := h.toBooks.congr rfl rfl rfl rfl rfl rfl rfl fun _ _ => rfl
      toRows := h.toRows.drop (fun _ hj => List.mem_of_mem_erase hj) id hm hm rfl rfl rfl rfl rfl
        h.parked rfl
      free := by omega
      lt := h.tokens_lt k (tokens_pos_of_mem_jobs hk)
      loop := hl
      inFlight_eq := by
        change r.inFlight - 1 = (r.jobs.erase k).length
        rw [h.inFlight_eq, List.length_erase_of_mem hk]
      tokens_le := fun j => by have := htok j; have := h.tokens_le j; omega
      tokens_lt := fun j hj => h.tokens_lt j (by have := htok j; omega)
      tokens_live := fun he j hj hjk => by
        have h1 := htok j
        have h2 := h.tokens_live he j hj
        simp only [hjk, if_false] at h1
        omega }

/-- What the body of a turn can do. -/
inductive Turned (g : Graph) (env : Env) (r : Run) : Run → Prop
  | completed {k s} : k ∈ r.jobs → r.phase k = .finished →
      Completed g env { r with jobs := r.jobs.erase k, inFlight := r.inFlight - 1 } k s →
      Turned g env r s
  | dispatched {k rest s} : r.err = none → r.ready = k :: rest →
      Dispatched g env { r with ready := rest } k s → Turned g env r s
  | exited : r.inFlight = 0 → (r.err = none → r.ready = []) →
      Turned g env r { r with main := .exited }

theorem Inv.turnBody_cases (h : Inv g env r) (hl : r.main = .loop) {job : Option ℕ} {s : Run}
    (hs : r.turnBody g env job = some s) : Turned g env r s := by
  cases job with
  | some k =>
    simp only [turnBody] at hs
    split at hs
    · rename_i hk
      cases hs
      exact .completed hk.1 hk.2 (runComplete_cases (h.take hl hk.1).zero.1)
    · cases hs
  | none =>
    simp only [turnBody, idleTurn] at hs
    split at hs
    · rename_i k rest herr hready
      cases hs
      have hp := h.pop hl hready
      exact .dispatched herr hready (runDispatch_cases hp.zero.1 hp.epoch_le)
    · rename_i hno
      split at hs
      · rename_i hz
        cases hs
        refine .exited hz fun herr => ?_
        cases hr : r.ready with
        | nil => rfl
        | cons k rest => exact (hno k rest herr hr).elim
      · cases hs

theorem Inv.exited (h : Inv g env r) (hl : r.main = .loop) {main : Main}
    (hm : main.action = none) : Inv g env { r with main := main } := by
  have hold : r.main.action = none := by rw [hl]; rfl
  have htok : ∀ j, ({ r with main := main } : Run).tokens j = r.tokens j := fun j => by
    simp only [tokens, Main.token_of_none hm, Main.token_of_none hold]
  exact
    { toBooks := h.toBooks.congr rfl rfl rfl rfl rfl rfl rfl fun _ _ => rfl
      toRows := h.toRows.drop (fun _ hj => hj) id hm hold rfl rfl rfl rfl rfl h.parked rfl
      inFlight_eq := h.inFlight_eq
      tokens_le := fun j => by rw [htok]; exact h.tokens_le j
      tokens_lt := fun j hj => h.tokens_lt j (by rwa [htok] at hj)
      tokens_live := fun he j hj => by rw [htok]; exact h.tokens_live he j hj }

theorem Inv.turned (h : Inv g env r) (hg : g.Wf hash) (hl : r.main = .loop) {s : Run}
    (hs : Turned g env r s) : Inv g env s := by
  cases hs with
  | completed hk _ hc =>
    have hp := h.take hl hk
    exact hp.completed hg (fun herr p hpu hne =>
      done_of_settled (by rw [hl]; rfl) (h.under herr _ hk p hpu hne)) hc
  | dispatched herr hr hd => exact (h.pop hl hr).dispatched hg herr hd
  | exited => exact h.exited hl rfl

theorem Inv.turn (h : Inv g env r) (hg : g.Wf hash) {cancel : Bool} {job : Option ℕ} {s : Run}
    (hs : r.turn g env cancel job = some s) : Inv g env s := by
  unfold Run.turn at hs
  split at hs
  · rename_i hl
    have hh := h.headOfTurn hl cancel
    dsimp only at hs
    split at hs
    · exact hh.turned hg hl (hh.turnBody_cases hl hs)
    · cases hs
      exact hh.exited hl rfl
  · cases hs

theorem Inv.settle (h : Inv g env r) (hm : r.main = .commit k) :
    Inv g env { r with wrote := update r.wrote k false, main := .settle k } := by
  have hact : (Main.settle k).action = r.main.action := by rw [hm]; rfl
  have htok : ∀ j, ({ r with wrote := update r.wrote k false, main := .settle k } : Run).tokens j =
      r.tokens j := fun j => by simp only [tokens, Main.token, hact]
  have hset : ∀ {p}, r.Settled p →
      ({ r with wrote := update r.wrote k false, main := .settle k } : Run).Settled p := fun hs =>
    hs.elim Or.inl fun hp => Or.inr (hact.trans hp)
  exact
    { toBooks := h.toBooks.congr rfl rfl rfl rfl rfl rfl rfl fun _ _ => rfl
      toRows :=
        { remembered := fun he j hj hph p hp hne => hset (h.remembered he j hj hph p hp hne)
          under := fun he j hj p hp hne => hset (h.under he j hj p hp hne)
          commit := fun j hj => h.commit j (hact.symm.trans hj)
          commit_err := fun j hj => h.commit_err j (hact.symm.trans hj)
          parked := h.parked
          ordered := h.ordered }
      inFlight_eq := h.inFlight_eq
      tokens_le := fun j => by rw [htok]; exact h.tokens_le j
      tokens_lt := fun j hj => h.tokens_lt j (by rwa [htok] at hj)
      tokens_live := fun he j hj => by rw [htok]; exact h.tokens_live he j hj }

theorem Inv.endCommit (h : Inv g env r) (hg : g.Wf hash) (hm : r.main = .settle k)
    (err : Option Err) : Inv g env (r.endCommit g k err) := by
  have hact : r.main.action = some k := by rw [hm]; rfl
  obtain ⟨-, hj0, hdef, hpend, hdone⟩ := commit_alone (h.tokens_le k) hact
  have hset : ∀ {p : ℕ}, p ≠ k → r.Settled p → r.done p = true := fun hne hs =>
    hs.resolve_right (by rw [hact]; exact fun he => hne (Option.some.inj he).symm)
  have htok : ∀ j, r.tokens j =
      ({ r with main := .loop } : Run).tokens j + if j = k then 1 else 0 := by
    intro j
    simp only [tokens, Main.token_of_some hact, Main.token_of_none (m := .loop) rfl]
    omega
  cases err with
  | some e =>
    exact
      { toBooks := h.toBooks.congr rfl rfl rfl rfl rfl rfl rfl fun _ _ => rfl
        toRows :=
          { remembered := fun he => by cases he
            under := fun he => by cases he
            commit := fun j hj => by cases hj
            commit_err := fun j hj => by cases hj
            parked := h.parked
            ordered := h.ordered }
        inFlight_eq := h.inFlight_eq
        tokens_le := fun j => by
          have := htok j; have := h.tokens_le j; simp only [Run.endCommit, tokens] at *; omega
        tokens_lt := fun j hj => h.tokens_lt j (by
          have := htok j; simp only [Run.endCommit, tokens] at *; omega)
        tokens_live := fun he => by cases he }
  | none =>
    -- the finished action is settled for everybody who looked at the commit
    have hb : Books g { r with main := .loop } :=
      h.toBooks.congr rfl rfl rfl rfl rfl rfl rfl fun _ _ => rfl
    have hfdone : ∀ p, r.Settled p → (r.endCommit g k none).Settled p := by
      intro p hs
      left
      by_cases hpk : p = k
      · subst hpk; simp [Run.endCommit, Run.finishAction]
      · simp [Run.endCommit, Run.finishAction, update_of_ne hpk, hset hpk hs]
    have hk1 := htok k
    have hk2 := h.tokens_le k
    simp only [if_true] at hk1
    have htok' : ∀ j, (r.endCommit g k none).tokens j = r.tokens j := fun j => by
      rw [htok j]
      exact tokens_finishAction (r := { r with main := .loop }) hdone j
    exact
      { toBooks := hb.finishAction hg (h.tokens_lt k (tokens_pos_of_commit hact)) hdone
        toRows :=
          { remembered := fun he j hj hph p hp hne =>
              hfdone p (h.remembered he j hj hph p hp hne)
            under := fun he j hj p hp hne => hfdone p (h.under he j hj p hp hne)
            commit := fun j hj => by cases hj
            commit_err := fun j hj => by cases hj
            parked := h.parked
            ordered := h.ordered.snoc
              (fun p hp => (h.done_iff p).mp (h.toBooks.producers_done hpend hp))
              fun p hp hne => (h.done_iff p).mp (h.commit k hact p hp hne) }
        inFlight_eq := h.inFlight_eq
        tokens_le := fun j => by rw [htok']; exact h.tokens_le j
        tokens_lt := fun j hj => h.tokens_lt j (by rwa [htok'] at hj)
        tokens_live := fun he j hj => by rw [htok']; exact h.tokens_live he j hj }

/-- Every event keeps the invariant. -/
theorem Inv.step (h : Inv g env r) (hg : g.Wf hash) {e : Event W} {s : Run}
    (hs : r.step g env e = some s) : Inv g env s := by
  cases e with
  | begin k =>
    obtain ⟨hk, rfl⟩ := of_guarded hs
    exact h.workerBegin hk
  | lookup k =>
    obtain ⟨hk, rfl⟩ := of_guarded hs
    exact h.workerLookup hk
  | miss k =>
    obtain ⟨hk, rfl⟩ := of_guarded hs
    exact h.workerPhase hk.1 ⟨nofun, nofun⟩
  | restore k outputs =>
    obtain ⟨hk, rfl⟩ := of_guarded hs
    exact h.workerRestore hg hk.1.1 outputs
  | write k w =>
    obtain ⟨-, rfl⟩ := of_guarded hs
    exact h.frame (fun he => h.remembered he) (fun he => h.under he) fun _ _ => rfl
  | restored k ok =>
    obtain ⟨hk, rfl⟩ := of_guarded hs
    exact h.workerRestored hk.1 ok
  | execute k err rows digests =>
    obtain ⟨hk, rfl⟩ := of_guarded hs
    exact h.workerExecute hk.1.1 err rows digests
  | turn cancel job => exact h.turn hg hs
  | settle =>
    simp only [Run.step] at hs
    split at hs
    · rename_i k hm
      cases hs
      exact h.settle hm
    · cases hs
  | commit err =>
    simp only [Run.step] at hs
    split at hs
    · rename_i k hm
      cases hs
      exact h.endCommit hg hm err
    · cases hs

/-! ## The first state -/

/-- An artifact nobody has produced yet has no digest. -/
theorem first_digest_of_producer (hg : g.Wf hash) {a p : ℕ} (hp : g.producer a = some p) :
    (first g env).digest a = .zero := by
  simp only [Graph.producer] at hp
  obtain ⟨x, hx, hxp⟩ := Option.bind_eq_some_iff.mp hp
  have hw := hg.artifact x (List.mem_of_getElem? hx)
  have hv : x.kind ≠ .value := fun he => by rw [(hw.value he).1] at hxp; cases hxp
  simp [first, seedDigest, hx, hxp, hw.fresh hv]

theorem first_inv (hg : g.Wf hash) : Inv g env (first g env) := by
  have hpend : ∀ k, (first g env).pending k = (g.consumes k).countP ((first g env).blocked g) := by
    intro k
    change (g.consumes k).countP (fun a => !((first g env).digest a).valid) = _
    congr 1
    funext a
    unfold blocked
    cases hp : g.producer a with
    | none => rfl
    | some p =>
      rw [first_digest_of_producer hg hp]
      rfl
  have hcount : ∀ k, (first g env).ready.count k =
      if k < g.actions.length ∧ (first g env).pending k = 0 then 1 else 0 := by
    intro k
    change (((List.range g.actions.length).filter fun j =>
      (first g env).pending j = 0).reverse).count k = _
    rw [List.count_reverse]
    by_cases hk : k < g.actions.length ∧ (first g env).pending k = 0
    · rw [if_pos hk, List.count_filter (by simpa using hk.2)]
      exact List.count_eq_one_of_mem List.nodup_range (List.mem_range.mpr hk.1)
    · rw [if_neg hk, List.count_eq_zero]
      intro hin
      obtain ⟨h1, h2⟩ := List.mem_filter.mp hin
      exact hk ⟨List.mem_range.mp h1, by simpa using h2⟩
  have htok : ∀ k, (first g env).tokens k = if k < g.actions.length then 1 else 0 := by
    intro k
    have hz : g.actions.length ≤ k → (first g env).pending k = 0 := fun hk => by
      rw [hpend, Graph.consumes_eq_nil hk]; rfl
    have hshape : (first g env).tokens k =
        (first g env).ready.count k + 0 + 0 + min 1 0 + min 1 ((first g env).pending k) + 0 := rfl
    rw [hshape, hcount]
    by_cases hk : k < g.actions.length
    · by_cases hp : (first g env).pending k = 0
      · simp [hk, hp]
      · simp only [hk, hp, and_false, if_false, if_true]
        omega
    · simp [hk, hz (by omega)]
  exact
    { pending_eq := hpend
      deferred_eq := fun k => by simp [first, waitsOn]
      completed_eq := rfl
      done_iff := fun k => by simp [first]
      nodup := List.nodup_nil
      epoch_le := nofun
      remembered := nofun
      under := nofun
      commit := nofun
      commit_err := nofun
      parked := nofun
      ordered := fun pre k rows post he => by simp [first] at he
      inFlight_eq := rfl
      tokens_le := fun k => by rw [htok]; split <;> omega
      tokens_lt := fun k hk => by
        rw [htok] at hk
        by_contra hno
        simp [hno] at hk
      tokens_live := fun _ k hk => by rw [htok, if_pos hk] }

theorem start_eq_first {r₀ : Run} (h : start g env = .ok r₀) : r₀ = first g env := by
  unfold start at h
  split at h
  · cases h
  split at h
  · cases h
  split at h
  · cases h; rfl
  · cases h

/-- A run starts when nothing is wrong with the graph and every source is
there. -/
theorem start_ok {r₀ : Run} (h : start g env = .ok r₀) :
    g.validate = none ∧ ∀ i < g.artifacts.length, (seedDigest g env i).isSome := by
  unfold start at h
  split at h
  · cases h
  · split at h
    · cases h
    · rename_i hv
      split at h
      · rename_i hall
        refine ⟨hv, fun i hi => ?_⟩
        simpa using List.all_eq_true.mp hall i (List.mem_range.mpr hi)
      · cases h

/-- Every reachable state keeps the invariant. -/
theorem Reaches.inv (hg : g.Wf hash) {es : List (Event W)} (h : Reaches g env es r) :
    Inv g env r := by
  obtain ⟨r₀, h₀, hr⟩ := h
  rw [start_eq_first h₀] at hr
  exact replay_invariant (fun hi hs => hi.step hg hs) (first_inv hg) hr

end Run
end Spn.Dag
