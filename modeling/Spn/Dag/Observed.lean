import Spn.Dag.Invariant

/-! # What the actions of a run observed

The rows an attempt holds are rows an execution of the run reported. No action
passes the point where its rows are checked before the producers of the rows
it reported have finished, and whoever waits on a producer waits for a row that
the table given to the run holds under his weak key, or for one he reported.
-/
namespace Spn.Dag

open Spn.Lib Function

theorem mem_dropRepeats {o : Obs} : ∀ {rows : List Obs}, o ∈ dropRepeats rows ↔ o ∈ rows
  | [] => by simp [dropRepeats]
  | [a] => by simp [dropRepeats]
  | a :: b :: rest => by
    unfold dropRepeats
    split
    · rename_i hab
      rw [mem_dropRepeats, hab]
      simp
    · rw [List.mem_cons, mem_dropRepeats, List.mem_cons (l := b :: rest)]

/-- Canonicalizing keeps the set of rows. -/
theorem mem_canonicalize {o : Obs} {rows : List Obs} : o ∈ canonicalize rows ↔ o ∈ rows := by
  rw [canonicalize, mem_dropRepeats, List.mem_insertionSort]

namespace Run

variable {g : Graph} {env : Env} {r : Run} {k : ℕ} {W : Type}

/-- The producers of the rows an action reported in some execution so far. -/
def Reported (g : Graph) (r : Run) (k p : ℕ) : Prop :=
  ∃ rows, (k, rows) ∈ r.reported ∧ p ∈ rows.flatMap g.obsProducers

/-- The producers of the rows that the table given to the run holds under the
weak key of an action. -/
def Recalled (g : Graph) (env : Env) (r : Run) (k p : ℕ) : Prop :=
  g.actionKind k = some .discovered ∧
    ∃ set, env.discovery (weakKey env.hash g r.digest k) = some set ∧
      p ∈ set.obs.flatMap g.obsProducers

/-- An attempt whose rows have not passed the check yet. -/
def Unchecked (r : Run) (k : ℕ) : Prop := r.At k .finished ∨ r.parked k = true

structure Observed (g : Graph) (env : Env) (r : Run) : Prop where
  rows_reported : ∀ k, ∀ o ∈ (r.flight k).rows, ∃ rows, (k, rows) ∈ r.reported ∧ o ∈ rows
  fresh : ∀ k ∈ r.jobs, r.phase k ≠ .finished →
    (r.flight k).rows = [] ∧ (r.flight k).hit = false
  hit_nil : ∀ k, (r.flight k).hit = true → (r.flight k).rows = []
  parked_idle : ∀ k, r.parked k = true → k ∉ r.jobs ∧ r.main.action ≠ some k ∧ r.done k = false
  reported_kind : ∀ k rows, (k, rows) ∈ r.reported →
    g.actionKind k = some .discovered ∨ rows = []
  reported_done : r.err = none → ∀ k p, r.Reported g k p → p ≠ k →
    r.done p = true ∨ (p ∈ r.reportedProducers g k ∧ r.Unchecked k)
  reported_order : ∀ pre k rows post, r.finished = pre ++ (k, rows) :: post →
    ∀ p, r.Reported g k p → p ≠ k → p ∈ pre.map Prod.fst
  table : r.err = none → ∀ key set, r.discovery key = some set →
    env.discovery key = some set ∨ ∀ p ∈ set.obs.flatMap g.obsProducers, r.Settled p
  waits : ∀ p, ∀ k ∈ r.waiters p, p ≠ k ∧ r.pending k = 0 ∧
    (r.Recalled g env k p ∨ r.Reported g k p)

/-- A job that is not done executing holds no unchecked rows. -/
theorem Observed.checked (h : Observed g env r) (herr : r.err = none) (hk : k ∈ r.jobs)
    (hph : r.phase k ≠ .finished) {p : ℕ} (hp : r.Reported g k p) (hne : p ≠ k) :
    r.done p = true := by
  rcases h.reported_done herr k p hp hne with hd | ⟨-, hat | hpark⟩
  · exact hd
  · exact absurd hat.2 hph
  · exact absurd hk (h.parked_idle k hpark).1

/-! ## Steps of the workers -/

theorem Observed.frame (h : Observed g env r) (hk : k ∈ r.jobs) (hph : r.phase k ≠ .finished)
    {flight : ℕ → Flight} {phase : ℕ → Phase} (wrote : ℕ → Bool)
    (hrows : ∀ j, (flight j).rows = (r.flight j).rows)
    (hhit : ∀ j, j ≠ k → (flight j).hit = (r.flight j).hit)
    (hself : phase k = .finished ∨ (flight k).hit = (r.flight k).hit)
    (hphase : ∀ j, j ≠ k → phase j = r.phase j) :
    Observed g env { r with flight := flight, phase := phase, wrote := wrote } where
  rows_reported j o ho := h.rows_reported j o (by rwa [← hrows j])
  fresh j hj hne := by
    rw [hrows j]
    by_cases hjk : j = k
    · subst hjk
      rw [hself.resolve_left hne]
      exact h.fresh j hj hph
    · rw [hhit j hjk]
      exact h.fresh j hj (by rwa [← hphase j hjk])
  hit_nil j hit := by
    rw [hrows j]
    by_cases hjk : j = k
    · subst hjk
      exact (h.fresh j hk hph).1
    · exact h.hit_nil j (by rwa [← hhit j hjk])
  parked_idle := h.parked_idle
  reported_kind := h.reported_kind
  reported_done herr j p hp hne := by
    by_cases hjk : j = k
    · subst hjk
      exact .inl (h.checked herr hk hph hp hne)
    · rcases h.reported_done herr j p hp hne with hd | ⟨hrep, hat | hpark⟩
      · exact .inl hd
      · exact .inr ⟨by simpa only [reportedProducers, hrows j] using hrep,
          .inl ⟨hat.1, (hphase j hjk).trans hat.2⟩⟩
      · exact .inr ⟨by simpa only [reportedProducers, hrows j] using hrep, .inr hpark⟩
  reported_order := h.reported_order
  table := h.table
  waits := h.waits

theorem Observed.workerStep (h : Observed g env r) (hk : k ∈ r.jobs) (hph : r.phase k ≠ .finished)
    {f : Flight} {phase : Phase} (wrote : ℕ → Bool) (hrows : f.rows = (r.flight k).rows)
    (hself : phase = .finished ∨ f.hit = (r.flight k).hit) :
    Observed g env { r with
      flight := update r.flight k f, phase := update r.phase k phase, wrote := wrote } := by
  refine h.frame hk hph wrote (fun j => ?_) (fun j hj => by rw [update_of_ne hj])
    (by rwa [update_self, update_self]) fun j hj => by rw [update_of_ne hj]
  by_cases hj : j = k
  · subst hj; rw [update_self, hrows]
  · rw [update_of_ne hj]

theorem Observed.workerLookup (h : Observed g env r) (hk : r.At k .looking) :
    Observed g env (r.workerLookup g env k) := by
  refine h.workerStep hk.1 (by rw [hk.2]; nofun) r.wrote ?_ (.inr ?_)
  · split
    · rfl
    · split <;> rfl
    · rfl
  · split
    · rfl
    · split <;> rfl
    · rfl

theorem Observed.workerPhase (h : Observed g env r) (hk : k ∈ r.jobs) (hph : r.phase k ≠ .finished)
    {phase : Phase} : Observed g env { r with phase := update r.phase k phase } :=
  h.frame hk hph r.wrote (fun _ => rfl) (fun _ _ => rfl) (.inr rfl)
    fun _ hj => update_of_ne hj _ _

variable {hash : List UInt8 → Digest}

/-- The digests of an action that has not finished change no weak key that
somebody looked the table up with. -/
theorem Observed.storeDigests (h : Observed g env r) (hg : g.Wf hash) (hb : Books g r)
    (hd : r.done k = false) (ds : List Digest) :
    Observed g env { r with digest := Run.storeDigests r.digest ((g.produces k).zip ds) } where
  rows_reported := h.rows_reported
  fresh := h.fresh
  hit_nil := h.hit_nil
  parked_idle := h.parked_idle
  reported_kind := h.reported_kind
  reported_done := h.reported_done
  reported_order := h.reported_order
  table := h.table
  waits p j hj := by
    obtain ⟨hne, hpend, hw⟩ := h.waits p j hj
    refine ⟨hne, hpend, hw.imp_left fun hrec => ?_⟩
    simpa only [Recalled, weakKey_storeDigests env hg hb hpend hd ds] using hrec

theorem Observed.workerRestore (h : Observed g env r) (hi : Inv g env r) (hg : g.Wf hash)
    (hk : r.At k .looked) (outputs : List Digest) :
    Observed g env (r.workerRestore g k outputs) := by
  have hd := (job_alone (hi.tokens_le k) hk.1).2.2.2.2.2
  exact (h.storeDigests hg hi.toBooks hd outputs).frame (k := k) hk.1 (by
    rw [show ({ r with digest := Run.storeDigests r.digest ((g.produces k).zip outputs) } :
      Run).phase = r.phase from rfl, hk.2]; nofun) _ (fun _ => rfl) (fun _ _ => rfl) (.inr rfl)
    fun _ hj => update_of_ne hj _ _

theorem Observed.workerRestored (h : Observed g env r) (hk : r.At k .settling) (ok : Bool) :
    Observed g env (r.workerRestored k ok) := by
  have hph : r.phase k ≠ .finished := by rw [hk.2]; nofun
  cases ok with
  | true => exact h.workerStep hk.1 hph r.wrote rfl (.inl rfl)
  | false => exact h.workerPhase hk.1 hph

theorem Observed.workerExecute (h : Observed g env r) (hi : Inv g env r) (hk : r.At k .executing)
    {err : Option Err} {rows : List Obs} {digests : List Digest}
    (hkind : g.actionKind k = some .discovered ∨ rows = []) :
    Observed g env (r.workerExecute k err rows digests) := by
  have hph : r.phase k ≠ .finished := by rw [hk.2]; nofun
  have hrep : ∀ {j p}, (r.workerExecute k err rows digests).Reported g j p →
      r.Reported g j p ∨ j = k ∧ p ∈ rows.flatMap g.obsProducers := by
    rintro j p ⟨rs, hrs, hp⟩
    rcases List.mem_append.mp hrs with hrs | hrs
    · exact .inl ⟨rs, hrs, hp⟩
    · obtain ⟨rfl, rfl⟩ := Prod.mk.inj (List.mem_singleton.mp hrs)
      exact .inr ⟨rfl, hp⟩
  refine ⟨fun j o ho => ?_, fun j hj hfin => ?_, fun j hit => ?_, h.parked_idle, fun j rs hrs => ?_,
    fun herr j p hp hne => ?_, fun pre j rs post hfin p hp hne => ?_, h.table, fun p j hj => ?_⟩
  · by_cases hjk : j = k
    · subst hjk
      simp only [Run.workerExecute, update_self] at ho
      exact ⟨rows, by simp [Run.workerExecute], mem_canonicalize.mp ho⟩
    · simp only [Run.workerExecute, update_of_ne hjk] at ho
      obtain ⟨rs, hrs, hors⟩ := h.rows_reported j o ho
      exact ⟨rs, List.mem_append_left _ hrs, hors⟩
  · by_cases hjk : j = k
    · subst hjk
      exact absurd (by simp [Run.workerExecute]) hfin
    · simp only [Run.workerExecute, update_of_ne hjk] at hfin ⊢
      exact h.fresh j hj hfin
  · by_cases hjk : j = k
    · subst hjk
      simp [Run.workerExecute, (h.fresh j hk.1 hph).2] at hit
    · simp only [Run.workerExecute, update_of_ne hjk] at hit ⊢
      exact h.hit_nil j hit
  · rcases List.mem_append.mp hrs with hrs | hrs
    · exact h.reported_kind j rs hrs
    · obtain ⟨rfl, rfl⟩ := Prod.mk.inj (List.mem_singleton.mp hrs)
      exact hkind
  · rcases hrep hp with hold | ⟨rfl, hnew⟩
    · by_cases hjk : j = k
      · subst hjk
        exact .inl (h.checked herr hk.1 hph hold hne)
      · rcases h.reported_done herr j p hold hne with hd | ⟨hrows, hat | hpark⟩
        · exact .inl hd
        · refine .inr ⟨?_, .inl ⟨hat.1, ?_⟩⟩
          · simpa [reportedProducers, Run.workerExecute, update_of_ne hjk] using hrows
          · simpa [Run.workerExecute, update_of_ne hjk] using hat.2
        · refine .inr ⟨?_, .inr hpark⟩
          simpa [reportedProducers, Run.workerExecute, update_of_ne hjk] using hrows
    · refine .inr ⟨?_, .inl ⟨hk.1, by simp [Run.workerExecute]⟩⟩
      obtain ⟨o, ho, hpo⟩ := List.mem_flatMap.mp hnew
      simp only [reportedProducers, Run.workerExecute, update_self]
      exact List.mem_flatMap.mpr ⟨o, mem_canonicalize.mpr ho, hpo⟩
  · rcases hrep hp with hold | ⟨rfl, -⟩
    · exact h.reported_order pre j rs post hfin p hold hne
    · -- the action has not finished
      have hin : j ∈ r.finished.map Prod.fst := by
        rw [show r.finished = _ from hfin]
        simp
      have hd := (hi.done_iff j).mpr hin
      rw [(job_alone (hi.tokens_le j) hk.1).2.2.2.2.2] at hd
      cases hd
  · obtain ⟨hne, hpend, hw⟩ := h.waits p j hj
    exact ⟨hne, hpend, hw.imp_right fun ⟨rs, hrs, hp⟩ => ⟨rs, List.mem_append_left _ hrs, hp⟩⟩

/-! ## Steps of the main thread -/

/-- An action leaves the ready stack or the executor, or changes its parked
flag, with its rows accounted for. -/
theorem Observed.drop (h : Observed g env r) {s : Run}
    (hjobs : ∀ j ∈ s.jobs, j ∈ r.jobs) (hkeep : ∀ j ∈ r.jobs, j ≠ k → j ∈ s.jobs)
    (hm : s.main.action = none) (hold : r.main.action = none)
    (herr : s.err = none → r.err = none)
    (hsame : s.flight = r.flight ∧ s.phase = r.phase ∧ s.discovery = r.discovery ∧
      s.digest = r.digest ∧ s.waiters = r.waiters ∧ s.reported = r.reported ∧
      s.finished = r.finished ∧ s.done = r.done ∧ s.pending = r.pending)
    (hparked : ∀ j, j ≠ k → s.parked j = r.parked j)
    (hidle : s.parked k = true → k ∉ s.jobs ∧ r.done k = false)
    (hrows : s.err = none → ∀ p, r.Reported g k p → p ≠ k → r.done p = true ∨
      (p ∈ r.reportedProducers g k ∧ s.parked k = true)) : Observed g env s := by
  obtain ⟨h1, h2, h3, h4, h5, h6, h7, h8, h9⟩ := hsame
  have hrep : ∀ j p, s.Reported g j p ↔ r.Reported g j p := fun j p => by
    simp only [Reported, h6]
  refine ⟨?_, fun j hj => ?_, ?_, fun j hj => ?_, ?_, fun he j p hp hne => ?_,
    fun pre j rows post hf p hp => ?_, fun he key set hk => ?_, fun p j hj => ?_⟩
  · rw [h1, h6]; exact h.rows_reported
  · rw [h1, h2]; exact h.fresh j (hjobs j hj)
  · rw [h1]; exact h.hit_nil
  · by_cases hjk : j = k
    · subst hjk
      obtain ⟨hout, hd⟩ := hidle hj
      exact ⟨hout, by rw [hm]; nofun, by rwa [h8]⟩
    · rw [hparked j hjk] at hj
      obtain ⟨hout, -, hd⟩ := h.parked_idle j hj
      exact ⟨fun hin => hout (hjobs j hin), by rw [hm]; nofun, by rwa [h8]⟩
  · rw [h6]; exact h.reported_kind
  · rw [hrep] at hp
    simp only [reportedProducers, h1, h8]
    by_cases hjk : j = k
    · subst hjk
      exact (hrows he p hp hne).imp_right fun ⟨hin, hpark⟩ => ⟨hin, .inr hpark⟩
    · refine (h.reported_done (herr he) j p hp hne).imp_right fun ⟨hin, hun⟩ => ⟨hin, ?_⟩
      exact hun.imp (fun hat => ⟨hkeep j hat.1 hjk, by rw [h2]; exact hat.2⟩)
        fun hpark => (hparked j hjk).trans hpark
  · rw [hrep] at hp
    rw [h7] at hf
    exact h.reported_order pre j rows post hf p hp
  · rw [h3] at hk
    refine (h.table (herr he) key set hk).imp_right fun hs p hp => .inl ?_
    rw [h8]
    exact done_of_settled hold (hs p hp)
  · rw [h5] at hj
    simp only [Recalled, h4, h9, hrep]
    exact h.waits p j hj

/-- The main thread moves between two points outside a commit. -/
theorem Observed.idle (h : Observed g env r) (hm : r.main.action = none) {turns : ℕ}
    {err : Option Err} (herr : err = none → r.err = none)
    {main : Main} (hmain : main.action = none) :
    Observed g env { r with turns := turns, err := err, main := main } where
  rows_reported := h.rows_reported
  fresh := h.fresh
  hit_nil := h.hit_nil
  parked_idle j hj := ⟨(h.parked_idle j hj).1, by rw [hmain]; nofun, (h.parked_idle j hj).2.2⟩
  reported_kind := h.reported_kind
  reported_done he := h.reported_done (herr he)
  reported_order := h.reported_order
  table he key set hk := (h.table (herr he) key set hk).imp_right fun hall p hp =>
    .inl (done_of_settled hm (hall p hp))
  waits := h.waits

theorem Observed.defer (h : Observed g env r) {ps : List ℕ} (hpend : r.pending k = 0)
    (hps : ∀ p ∈ r.blockers k ps, r.Recalled g env k p ∨ r.Reported g k p) :
    Observed g env (r.defer k ps) where
  rows_reported := h.rows_reported
  fresh := h.fresh
  hit_nil := h.hit_nil
  parked_idle := h.parked_idle
  reported_kind := h.reported_kind
  reported_done := h.reported_done
  reported_order := h.reported_order
  table := h.table
  waits p j hj := by
    rcases List.mem_append.mp hj with hj | hj
    · exact h.waits p j hj
    · obtain ⟨hne, rfl⟩ := List.mem_replicate.mp hj
      have hin := List.count_pos_iff.mp (Nat.pos_of_ne_zero hne)
      exact ⟨(mem_blockers.mp hin).2.1, hpend, hps p hin⟩

/-- Finishing an action all of whose rows are there. -/
theorem Observed.finishAction (h : Observed g env r) (hb : Books g r) (hpark : r.parked k = false)
    {m : Main} (hm : m.action = none) (hact : ∀ p, r.main.action = some p → p = k)
    (hrows : ∀ p, r.Reported g k p → p ≠ k → r.done p = true) :
    Observed g env ({ r with main := m }.finishAction g k) := by
  have hdone : ∀ p, r.done p = true → update r.done k true p = true := by
    intro p hp
    by_cases hpk : p = k
    · subst hpk; simp
    · rwa [update_of_ne hpk]
  refine ⟨h.rows_reported, h.fresh, h.hit_nil, fun j hj => ?_, h.reported_kind,
    fun he j p hp hne => (h.reported_done he j p hp hne).imp_left (hdone p),
    fun pre j rows post hf p hp hne => ?_, fun he key set hk => ?_, fun p j hj => ?_⟩
  · have hjk : j ≠ k := by
      rintro rfl
      have hj' : r.parked j = true := hj
      rw [hpark] at hj'
      cases hj'
    obtain ⟨hout, -, hd⟩ := h.parked_idle j hj
    refine ⟨hout, ?_, ?_⟩
    · change m.action ≠ some j
      rw [hm]; nofun
    · simpa [Run.finishAction, update_of_ne hjk] using hd
  · rcases List.append_eq_append_iff.mp hf with ⟨rest, hpre, hrest⟩ | ⟨rest, hlog, hrest⟩
    · cases rest with
      | nil =>
        simp only [List.append_nil, List.nil_append, List.cons.injEq, Prod.mk.injEq] at hpre hrest
        obtain ⟨⟨rfl, -⟩, -⟩ := hrest
        rw [hpre]
        exact (hb.done_iff p).mp (hrows p hp hne)
      | cons x rest => simp at hrest
    · cases rest with
      | nil =>
        simp only [List.append_nil, List.nil_append, List.cons.injEq, Prod.mk.injEq] at hlog hrest
        obtain ⟨⟨rfl, -⟩, -⟩ := hrest
        rw [← hlog]
        exact (hb.done_iff p).mp (hrows p hp hne)
      | cons x rest =>
        obtain ⟨rfl, -⟩ := List.cons.inj hrest
        exact h.reported_order pre j rows rest hlog p hp hne
  · refine (h.table he key set hk).imp_right fun hs p hp => .inl ?_
    rcases hs p hp with hd | hmain
    · exact hdone p hd
    · rw [hact p hmain]; simp [Run.finishAction]
  · obtain ⟨hne, hpend, hw⟩ := h.waits p j hj
    refine ⟨hne, ?_, hw⟩
    simp only [Run.finishAction, countDown_waiting]
    omega

/-- A commit begins once the rows of its attempt are all there. -/
theorem Observed.beginCommit (h : Observed g env r) (hp : Popped g env r k) (hg : g.Wf hash)
    (hpark : r.parked k = false)
    (hrows : g.actionKind k = some .discovered → r.blockers k (r.reportedProducers g k) = [])
    (hdone : ∀ p, r.Reported g k p → p ≠ k → r.done p = true) :
    Observed g env (r.beginCommit g env k) := by
  obtain ⟨_, disc, flight, he⟩ := beginCommit_frame g env r k
  have hset : ∀ {p}, r.Settled p → (r.beginCommit g env k).Settled p := fun hs => by
    rw [he]
    exact .inl (done_of_settled hp.idle hs)
  have hrep : ∀ j p, (r.beginCommit g env k).Reported g j p ↔ r.Reported g j p := fun j p => by
    rw [he]; rfl
  have hdone' : (r.beginCommit g env k).done = r.done := by rw [he]
  have hs := h.storeDigests hg hp.toBooks hp.zero.2.2.1 (r.flight k).digests
  refine ⟨fun j o ho => ?_, fun j hj hne => ?_, fun j hj => ?_, fun j hj => ?_, ?_,
    fun herr j p hr hne => ?_, fun pre j rows post hf p hr hne => ?_, fun herr key set hkey => ?_,
    fun p j hj => ?_⟩
  · rw [show (r.beginCommit g env k).reported = r.reported by rw [he]]
    rcases beginCommit_rows g env r k j with hn | hn
    · rw [hn] at ho; cases ho
    · rw [hn] at ho; exact h.rows_reported j o ho
  · have hj' : j ∈ r.jobs := by rwa [he] at hj
    rw [beginCommit_flight_of_ne (hp.jobs j hj').1]
    exact h.fresh j hj' (by rwa [he] at hne)
  · rw [beginCommit_hit] at hj
    rcases beginCommit_rows g env r k j with hn | hn
    · exact hn
    · rw [hn]; exact h.hit_nil j hj
  · have hj' : r.parked j = true := by rwa [he] at hj
    obtain ⟨h1, -, h3⟩ := h.parked_idle j hj'
    have hjk : k ≠ j := by
      rintro rfl
      rw [hpark] at hj'
      cases hj'
    refine ⟨by rwa [he], ?_, by rwa [hdone']⟩
    rw [beginCommit_main]
    exact fun hact => hjk (Option.some.inj hact)
  · rw [show (r.beginCommit g env k).reported = r.reported by rw [he]]
    exact h.reported_kind
  · rw [hrep] at hr
    rw [hdone']
    by_cases hjk : j = k
    · subst hjk
      exact .inl (hdone p hr hne)
    · rw [reportedProducers, beginCommit_flight_of_ne hjk]
      refine (h.reported_done (by rwa [he] at herr) j p hr hne).imp_right fun ⟨hin, hun⟩ => ⟨hin, ?_⟩
      rw [he]
      exact hun
  · rw [hrep] at hr
    exact h.reported_order pre j rows post (by rwa [he] at hf) p hr hne
  · rcases beginCommit_discovery hkey with hold | ⟨hk, -, hobs⟩
    · exact (h.table (by rwa [he] at herr) key set hold).imp_right fun hall p hpk =>
        hset (hall p hpk)
    · right
      intro p hpk
      rw [hobs] at hpk
      by_cases hne : p = k
      · right
        rw [hne, beginCommit_main]
        rfl
      · exact hset (.inl (blockers_eq_nil.mp (hrows hk) p (keptRows_producers hpk) hne))
  · have hj' : j ∈ r.waiters p := by rwa [he] at hj
    obtain ⟨hne, hpend, hw⟩ := hs.waits p j hj'
    refine ⟨hne, by rwa [he], ?_⟩
    rw [hrep]
    simpa only [Recalled, beginCommit_digest, Reported] using hw

theorem Observed.submit (h : Observed g env r) (hp : Popped g env r k) (hpark : r.parked k = false)
    (hdone : ∀ p, r.Reported g k p → p ≠ k → r.done p = true) : Observed g env (r.submit k) := by
  refine ⟨fun j o ho => ?_, fun j hj hne => ?_, fun j hit => ?_, fun j hj => ?_, h.reported_kind,
    fun he j p hrep hne => ?_, h.reported_order, h.table, h.waits⟩
  · by_cases hjk : j = k
    · subst hjk
      simp [Run.submit] at ho
    · simp only [Run.submit, update_of_ne hjk] at ho
      exact h.rows_reported j o ho
  · by_cases hjk : j = k
    · subst hjk; simp [Run.submit]
    · simp only [Run.submit, update_of_ne hjk] at hne ⊢
      exact h.fresh j ((List.mem_cons.mp hj).resolve_left hjk) hne
  · by_cases hjk : j = k
    · subst hjk
      simp [Run.submit] at hit
    · simp only [Run.submit, update_of_ne hjk] at hit ⊢
      exact h.hit_nil j hit
  · have hjk : j ≠ k := by
      rintro rfl
      have hj' : r.parked j = true := hj
      rw [hpark] at hj'
      cases hj'
    obtain ⟨h1, h2, h3⟩ := h.parked_idle j hj
    exact ⟨fun hin => h1 ((List.mem_cons.mp hin).resolve_left hjk), h2, h3⟩
  · by_cases hjk : j = k
    · subst hjk
      exact .inl (hdone p hrep hne)
    · refine (h.reported_done he j p hrep hne).imp_right fun hwait => ?_
      obtain ⟨hin, hun⟩ := hwait
      refine ⟨?_, ?_⟩
      · simpa [reportedProducers, Run.submit, update_of_ne hjk] using hin
      · exact hun.imp_left fun hat =>
          ⟨List.mem_cons_of_mem _ hat.1, by simpa [Run.submit, update_of_ne hjk] using hat.2⟩

/-- A deferral waits for rows somebody knows about. -/
theorem Observed.reportedProducers_reported (h : Observed g env r) {p : ℕ}
    (hp : p ∈ r.reportedProducers g k) : r.Reported g k p := by
  obtain ⟨o, ho, hpo⟩ := List.mem_flatMap.mp hp
  obtain ⟨rows, hrows, hor⟩ := h.rows_reported k o ho
  exact ⟨rows, hrows, List.mem_flatMap.mpr ⟨o, hor, hpo⟩⟩

/-- A pathset stored in this run keeps nobody waiting: only one that the table
held at the start does. -/
theorem Observed.rememberedProducers_recalled (h : Observed g env r) (herr : r.err = none)
    (hm : r.main.action = none) {p : ℕ} (hp : p ∈ r.rememberedProducers g env k)
    (hd : r.done p = false) : r.Recalled g env k p := by
  unfold rememberedProducers Run.remembered at hp
  by_cases hk : g.actionKind k = some .discovered
  · cases hset : r.discovery (weakKey env.hash g r.digest k) with
    | none => simp [hk, hset] at hp
    | some set =>
      simp only [hk, hset, if_true] at hp
      rcases h.table herr _ set hset with hinit | hall
      · exact ⟨hk, set, hinit, hp⟩
      · rw [done_of_settled hm (hall p hp)] at hd
        cases hd
  · simp [hk] at hp

/-- The rows of an action off the executor and not parked are all there. -/
theorem Observed.done_of_checked (h : Observed g env r) (herr : r.err = none)
    (hun : ¬ r.Unchecked k) {p : ℕ} (hp : r.Reported g k p) (hne : p ≠ k) : r.done p = true :=
  (h.reported_done herr k p hp hne).resolve_right fun hr => hun hr.2

/-- Passing the check on its rows, an action has them all. -/
theorem Observed.done_of_blockers (h : Observed g env r) (herr : r.err = none)
    (hb : r.blockers k (r.reportedProducers g k) = []) {p : ℕ} (hp : r.Reported g k p)
    (hne : p ≠ k) : r.done p = true := by
  rcases h.reported_done herr k p hp hne with hd | ⟨hin, -⟩
  · exact hd
  · exact blockers_eq_nil.mp hb p hin hne

theorem Observed.unpark (h : Observed g env r) (hp : Popped g env r k) (herr : r.err = none)
    (hb : r.parked k = true → r.blockers k (r.reportedProducers g k) = []) :
    Observed g env (r.unpark k) ∧ ∀ p, r.Reported g k p → p ≠ k → r.done p = true := by
  have hdone : ∀ p, r.Reported g k p → p ≠ k → r.done p = true := by
    intro p hr hne
    by_cases hpark : r.parked k = true
    · exact h.done_of_blockers herr (hb hpark) hr hne
    · exact h.done_of_checked herr (fun hun => hun.elim (fun hat => hp.zero.2.2.2 hat.1) hpark) hr hne
  refine ⟨h.drop (fun _ hj => hj) (fun _ hj _ => hj) hp.idle hp.idle id
    ⟨rfl, rfl, rfl, rfl, rfl, rfl, rfl, rfl, rfl⟩ (fun j hj => update_of_ne hj _ _) (fun hj => ?_)
    fun _ p hr hne => .inl (hdone p hr hne), hdone⟩
  simp [Run.unpark] at hj

theorem Observed.dispatched (h : Observed g env r) (hp : Popped g env r k) (hg : g.Wf hash)
    (herr : r.err = none) {s : Run} (hs : Dispatched g env r k s) : Observed g env s := by
  cases hs with
  | stillParked _ hb =>
    exact h.defer hp.zero.2.1 fun p hin =>
      .inr (h.reportedProducers_reported (mem_blockers.mp hin).1)
  | commit hpark hb _ =>
    obtain ⟨ho, hdone⟩ := h.unpark hp herr fun _ => hb
    exact ho.beginCommit hp.unpark hg (by simp [Run.unpark]) (fun _ => hb) hdone
  | deferred hb hrem =>
    obtain ⟨ho, -⟩ := h.unpark hp herr hb
    refine ho.defer hp.zero.2.1 fun p hin => .inl ?_
    obtain ⟨hpr, -, hd⟩ := mem_blockers.mp hin
    exact h.rememberedProducers_recalled herr hp.idle hpr hd
  | submitted hb _ =>
    obtain ⟨ho, hdone⟩ := h.unpark hp herr hb
    exact ho.submit hp.unpark (by simp [Run.unpark]) hdone

/-- A job handed back, with what the check on its rows found. -/
theorem Observed.take (h : Observed g env r) (hi : Inv g env r) (hl : r.main = .loop)
    (hk : k ∈ r.jobs) (n : ℕ) (err : Option Err) (parked : Bool)
    (herr : err = none → r.err = none)
    (hrows : err = none → ∀ p, r.Reported g k p → p ≠ k → r.done p = true ∨
      (p ∈ r.reportedProducers g k ∧ parked = true)) :
    Observed g env { r with
      jobs := r.jobs.erase k, inFlight := n, err := err
      parked := update r.parked k parked } := by
  have hm : r.main.action = none := by rw [hl]; rfl
  obtain ⟨-, hcount, -, -, -, hd⟩ := job_alone (hi.tokens_le k) hk
  refine h.drop (fun _ hj => List.mem_of_mem_erase hj)
    (fun _ hj hne => (List.mem_erase_of_ne hne).mpr hj) hm hm herr
    ⟨rfl, rfl, rfl, rfl, rfl, rfl, rfl, rfl, rfl⟩ (fun j hj => update_of_ne hj _ _)
    (fun _ => ⟨?_, hd⟩) (fun he p hr hne => by simpa using hrows he p hr hne)
  have hz : (r.jobs.erase k).count k = 0 := by rw [List.count_erase_self, hcount]
  exact List.count_eq_zero.mp hz

theorem Observed.completed (h : Observed g env r) (hi : Inv g env r) (hg : g.Wf hash)
    (hl : r.main = .loop) (hk : k ∈ r.jobs) {s : Run}
    (hs : Completed g env { r with jobs := r.jobs.erase k, inFlight := r.inFlight - 1 } k s) :
    Observed g env s := by
  have hp := hi.take hl hk
  have hpark : r.parked k = false := Bool.eq_false_iff.mpr fun hpk => (h.parked_idle k hpk).1 hk
  have hunpark : update r.parked k false = r.parked := by rw [← hpark, update_eq_self]
  -- the rows passed the check: nobody is parked
  have passed (herr : r.err = none)
      (hdone : ∀ p, r.Reported g k p → p ≠ k → r.done p = true) :
      Observed g env { r with jobs := r.jobs.erase k, inFlight := r.inFlight - 1 } := by
    have := h.take hi hl hk (r.inFlight - 1) r.err false id
      fun _ p hr hne => .inl (hdone p hr hne)
    rwa [hunpark] at this
  cases hs with
  | failed e =>
    have := h.take hi hl hk (r.inFlight - 1) (some e) false nofun nofun
    rwa [hunpark] at this
  | hit herr hhit =>
    have hrows := h.hit_nil k hhit
    have hdone : ∀ p, r.Reported g k p → p ≠ k → r.done p = true := fun p hr hne =>
      (h.reported_done herr k p hr hne).resolve_right fun hin => by
        simp [reportedProducers, hrows] at hin
    refine (passed herr hdone).finishAction hp.toBooks hpark (m := r.main) hp.idle ?_ hdone
    intro p hm
    rw [show ({ r with jobs := r.jobs.erase k, inFlight := r.inFlight - 1 } : Run).main.action =
      none from hp.idle] at hm
    cases hm
  | parked herr _ hb =>
    have ho := h.take hi hl hk (r.inFlight - 1) r.err true id
      fun he p hr hne => (h.reported_done he k p hr hne).imp_right fun ⟨hin, _⟩ => ⟨hin, rfl⟩
    exact ho.defer hp.zero.2.1 fun p hin =>
      .inr (h.reportedProducers_reported (mem_blockers.mp hin).1)
  | requeued herr hb =>
    have hpass := passed herr fun p hr hne => h.done_of_blockers herr hb hr hne
    exact hpass.drop (k := k) (fun _ hj => hj) (fun _ hj _ => hj) hp.idle hp.idle id
      ⟨rfl, rfl, rfl, rfl, rfl, rfl, rfl, rfl, rfl⟩ (fun _ _ => rfl)
      (fun hpk => absurd hpk (by simpa using hpark))
      fun _ p hr hne => .inl (h.done_of_blockers herr hb hr hne)
  | commit herr hrows =>
    have hdone : ∀ p, r.Reported g k p → p ≠ k → r.done p = true := by
      intro p hr hne
      by_cases hkind : g.actionKind k = some .discovered
      · exact h.done_of_blockers herr (hrows hkind).1 hr hne
      · obtain ⟨rs, hrs, hpr⟩ := hr
        rw [(h.reported_kind k rs hrs).resolve_left hkind] at hpr
        cases hpr
    exact (passed herr hdone).beginCommit hp hg hpark (fun hkind => (hrows hkind).1) hdone

theorem Observed.turned (h : Observed g env r) (hi : Inv g env r) (hg : g.Wf hash)
    (hl : r.main = .loop) {s : Run} (hs : Turned g env r s) : Observed g env s := by
  have hm : r.main.action = none := by rw [hl]; rfl
  cases hs with
  | completed hk _ hc => exact h.completed hi hg hl hk hc
  | @dispatched k rest _ herr hr hd =>
    refine Observed.dispatched (r := { r with ready := rest }) ?_ (hi.pop hl hr) hg herr hd
    exact ⟨h.rows_reported, h.fresh, h.hit_nil, h.parked_idle, h.reported_kind, h.reported_done,
      h.reported_order, h.table, h.waits⟩
  | exited => exact h.idle hm id rfl

theorem Observed.turn (h : Observed g env r) (hi : Inv g env r) (hg : g.Wf hash) {cancel : Bool}
    {job : Option ℕ} {s : Run} (hs : r.turn g env cancel job = some s) : Observed g env s := by
  unfold Run.turn at hs
  split at hs
  · rename_i hl
    have hm : r.main.action = none := by rw [hl]; rfl
    have hh : Observed g env (r.headOfTurn cancel) := h.idle hm headOfTurn_err hm
    have hih := hi.headOfTurn hl cancel
    dsimp only at hs
    split at hs
    · exact hh.turned hih hg hl (hih.turnBody_cases hl hs)
    · cases hs
      exact hh.idle hm id rfl
  · cases hs

theorem Observed.settle (h : Observed g env r) (hm : r.main = .commit k) :
    Observed g env { r with wrote := update r.wrote k false, main := .settle k } := by
  have hact : (Main.settle k).action = r.main.action := by rw [hm]; rfl
  exact
    { rows_reported := h.rows_reported
      fresh := h.fresh
      hit_nil := h.hit_nil
      parked_idle := fun j hj => by
        obtain ⟨h1, h2, h3⟩ := h.parked_idle j hj
        exact ⟨h1, by rwa [hact], h3⟩
      reported_kind := h.reported_kind
      reported_done := h.reported_done
      reported_order := h.reported_order
      table := fun he key set hk => (h.table he key set hk).imp_right fun hall p hp =>
        (hall p hp).elim Or.inl fun ha => Or.inr (hact.trans ha)
      waits := h.waits }

theorem Observed.endCommit (h : Observed g env r) (hi : Inv g env r) (hm : r.main = .settle k)
    (herr : r.err = none) (err : Option Err) : Observed g env (r.endCommit g k err) := by
  have hact : r.main.action = some k := by rw [hm]; rfl
  have hparked : r.parked k = false :=
    Bool.eq_false_iff.mpr fun hp => (h.parked_idle k hp).2.1 hact
  have hjob := (commit_alone (hi.tokens_le k) hact).2.1
  cases err with
  | some e =>
    exact
      { rows_reported := h.rows_reported
        fresh := h.fresh
        hit_nil := h.hit_nil
        parked_idle := fun j hj => ⟨(h.parked_idle j hj).1, nofun, (h.parked_idle j hj).2.2⟩
        reported_kind := h.reported_kind
        reported_done := nofun
        reported_order := h.reported_order
        table := nofun
        waits := h.waits }
  | none =>
    refine h.finishAction hi.toBooks hparked rfl (fun p hp => ?_) fun p hr hne => ?_
    · exact Option.some.inj (hp.symm.trans hact)
    · refine h.done_of_checked herr (fun hun => ?_) hr hne
      rcases hun with hat | hpk
      · exact absurd (List.count_pos_iff.mpr hat.1) (by omega)
      · rw [hparked] at hpk; cases hpk

/-- Every event keeps what is known of the rows. -/
theorem Observed.step (h : Observed g env r) (hi : Inv g env r) (hg : g.Wf hash) {e : Event W}
    {s : Run} (hs : r.step g env e = some s) : Observed g env s := by
  cases e with
  | begin k =>
    obtain ⟨hk, rfl⟩ := of_guarded hs
    exact h.workerStep hk.1 (by rw [hk.2]; nofun) r.wrote rfl (.inr rfl)
  | lookup k =>
    obtain ⟨hk, rfl⟩ := of_guarded hs
    exact h.workerLookup hk
  | miss k =>
    obtain ⟨hk, rfl⟩ := of_guarded hs
    exact h.workerPhase hk.1 (by rw [hk.2]; nofun)
  | restore k outputs =>
    obtain ⟨hk, rfl⟩ := of_guarded hs
    exact h.workerRestore hi hg hk.1 outputs
  | write k w =>
    obtain ⟨-, rfl⟩ := of_guarded hs
    exact ⟨h.rows_reported, h.fresh, h.hit_nil, h.parked_idle, h.reported_kind, h.reported_done,
      h.reported_order, h.table, h.waits⟩
  | restored k ok =>
    obtain ⟨hk, rfl⟩ := of_guarded hs
    exact h.workerRestored hk ok
  | execute k err rows digests =>
    obtain ⟨hk, rfl⟩ := of_guarded hs
    exact h.workerExecute hi hk.1 hk.2.1
  | turn cancel job => exact h.turn hi hg hs
  | settle =>
    simp only [Run.step] at hs
    split at hs
    · rename_i k hm
      cases hs
      exact h.settle hm
    · cases hs
  | commit err =>
    simp only [Run.step] at hs
    split at hs
    · rename_i k hm
      cases hs
      exact h.endCommit hi hm (hi.commit_err k (by rw [hm]; rfl)) err
    · cases hs

theorem first_observed : Observed g env (first g env) where
  rows_reported := nofun
  fresh := nofun
  hit_nil := nofun
  parked_idle := nofun
  reported_kind := nofun
  reported_done _ k p h := by obtain ⟨_, h, -⟩ := h; cases h
  reported_order _ _ _ _ h := by simp [first] at h
  table _ _ _ h := .inl h
  waits := nofun

/-- What is known of the rows in every reachable state. -/
theorem Reaches.observed (hg : g.Wf hash) {es : List (Event W)} (h : Reaches g env es r) :
    Observed g env r := by
  obtain ⟨r₀, h₀, hr⟩ := h
  rw [start_eq_first h₀] at hr
  exact (replay_invariant (I := fun r => Inv g env r ∧ Observed g env r)
    (fun hI hs => ⟨hI.1.step hg hs, hI.2.step hI.1 hg hs⟩)
    ⟨first_inv hg, first_observed⟩ hr).2

end Run
end Spn.Dag
