import Spn.Dag.Types

/-! # Well-formed graphs

What the building calls keep: inputs and consumers mirror each other, outputs
and producers mirror each other, and only values carry a digest before a run.
-/
namespace Spn.Dag.Graph

open List

/-- What holds of one artifact of a built graph. -/
structure ArtifactWf (hash : List UInt8 → Digest) (roots : Roots) (x : Artifact) : Prop where
  value : x.kind = .value → x.producer = none ∧ ∃ data, x.digest = hash data
  fresh : x.kind ≠ .value → x.digest = .zero
  tree : x.kind = .tree → x.path.empty = false
  named : x.kind = .value → x.name = [] ∧ x.path.sub = []
  unpinned : x.producer.isSome → x.path.empty = false → roots.pins x.path.root = false
  rooted : x.producer.isSome → x.path.empty = false → x.path.root ≠ .none
  label : x.path.empty = false → x.name = [] ∨ x.name = baseName x.path.sub
  output : x.producer.isSome → x.name ≠ []

/-- What holds of a built graph. -/
structure Wf (hash : List UInt8 → Digest) (g : Graph) : Prop where
  mirror : ∀ k a, (g.consumers a).count k = (g.consumes k).count a
  inputs_lt : ∀ k, ∀ a ∈ g.consumes k, a < g.artifacts.length
  consumers_lt : ∀ a, ∀ k ∈ g.consumers a, k < g.actions.length
  mem_produces : ∀ k a, a ∈ g.produces k ↔ g.producer a = some k
  nodup : ∀ k, (g.produces k).Nodup
  artifact : ∀ x ∈ g.artifacts, ArtifactWf hash g.roots x

variable {hash : List UInt8 → Digest}

theorem consumes_eq_nil {g : Graph} {k : ℕ} (h : g.actions.length ≤ k) : g.consumes k = [] := by
  simp [consumes, getElem?_eq_none h]

theorem produces_eq_nil {g : Graph} {k : ℕ} (h : g.actions.length ≤ k) : g.produces k = [] := by
  simp [produces, getElem?_eq_none h]

theorem Wf.producer_lt {g : Graph} (h : g.Wf hash) {a k : ℕ} (hp : g.producer a = some k) :
    k < g.actions.length := by
  by_contra hk
  have := (h.mem_produces k a).mpr hp
  rw [produces_eq_nil (by omega)] at this
  cases this

theorem wf_new (roots : Roots) : (new roots).Wf hash where
  mirror := by simp [new, consumers, consumes]
  inputs_lt := by simp [new, consumes]
  consumers_lt := by simp [new, consumers]
  mem_produces := by simp [new, produces, producer]
  nodup := by simp [new, produces]
  artifact := by simp [new]

/-! ## Artifacts and actions -/

theorem consumers_addArtifact (g : Graph) (x : Artifact) (a : ℕ) :
    (g.addArtifact x).1.consumers a = g.consumers a := by
  simp only [consumers, addArtifact, getElem?_append]
  split
  · rfl
  · rename_i h
    rw [getElem?_eq_none (l := g.artifacts) (by omega)]
    cases hi : a - g.artifacts.length with
    | zero => simp
    | succ i => simp

theorem producer_addArtifact {g : Graph} {x : Artifact} (hx : x.producer = none) (a : ℕ) :
    (g.addArtifact x).1.producer a = g.producer a := by
  simp only [producer, addArtifact, getElem?_append]
  split
  · rfl
  · rename_i h
    rw [getElem?_eq_none (l := g.artifacts) (by omega)]
    cases hi : a - g.artifacts.length with
    | zero => simp [hx]
    | succ i => simp

theorem Wf.addArtifact {g : Graph} (h : g.Wf hash) {x : Artifact} (hx : x.producer = none)
    (hw : ArtifactWf hash g.roots { x with consumers := [] }) : (g.addArtifact x).1.Wf hash where
  mirror k a := by rw [consumers_addArtifact]; exact h.mirror k a
  inputs_lt k a ha := by
    have := h.inputs_lt k a ha
    simp only [Graph.addArtifact, length_append, length_cons, length_nil]
    omega
  consumers_lt a k hk := by
    rw [consumers_addArtifact] at hk
    exact h.consumers_lt a k hk
  mem_produces k a := by rw [producer_addArtifact hx]; exact h.mem_produces k a
  nodup := h.nodup
  artifact y hy := by
    rcases mem_append.mp hy with hy | hy
    · exact h.artifact y hy
    · rw [mem_singleton.mp hy]; exact hw

theorem Wf.withPaths {g : Graph} (h : g.Wf hash) (paths : List (Path × ℕ)) :
    ({ g with paths := paths } : Graph).Wf hash :=
  ⟨h.mirror, h.inputs_lt, h.consumers_lt, h.mem_produces, h.nodup, h.artifact⟩

theorem Wf.addPath {g : Graph} {p : Path} {kind : ArtifactKind} {r : Graph × ℕ}
    (h : g.Wf hash) (hk : kind ≠ .value) (hr : g.addPath p kind = some r) : r.1.Wf hash := by
  unfold Graph.addPath at hr
  split at hr
  · cases hr
  · rename_i hp
    dsimp only at hr
    split at hr
    · cases hr; exact h
    · cases hr
      have hw : ArtifactWf hash g.roots ⟨kind, [], p, .zero, none, []⟩ :=
        ⟨fun he => absurd he hk, fun _ => rfl, fun _ => by simpa using hp,
          fun he => absurd he hk, nofun, nofun, fun _ => .inl rfl, nofun⟩
      have hg := h.addArtifact (x := ⟨kind, [], p, .zero, none, []⟩) rfl hw
      dsimp only
      split
      · exact hg.withPaths _
      · exact hg

theorem Wf.addAction {g : Graph} (h : g.Wf hash) (kind : ActionKind) (identity : Digest) :
    (g.addAction kind identity).1.Wf hash := by
  have hc : ∀ k, (g.addAction kind identity).1.consumes k = g.consumes k := by
    intro k
    simp only [consumes, Graph.addAction, getElem?_append]
    split
    · rfl
    · rename_i hlt
      rw [getElem?_eq_none (l := g.actions) (by omega)]
      cases k - g.actions.length <;> simp
  have hp : ∀ k, (g.addAction kind identity).1.produces k = g.produces k := by
    intro k
    simp only [produces, Graph.addAction, getElem?_append]
    split
    · rfl
    · rename_i hlt
      rw [getElem?_eq_none (l := g.actions) (by omega)]
      cases k - g.actions.length <;> simp
  refine ⟨fun k a => ?_, fun k a ha => ?_, fun a k hk => ?_, fun k a => ?_, fun k => ?_, h.artifact⟩
  · rw [hc]; exact h.mirror k a
  · rw [hc] at ha; exact h.inputs_lt k a ha
  · have := h.consumers_lt a k hk
    simp only [Graph.addAction, length_append, length_cons, length_nil]
    omega
  · rw [hp]; exact h.mem_produces k a
  · rw [hp]; exact h.nodup k

/-! ## Inputs and outputs -/

theorem consumes_addInput {g g' : Graph} {k a : ℕ} (h : g.addInput k a = some g') (j : ℕ) :
    g'.consumes j = if j = k then g.consumes k ++ [a] else g.consumes j := by
  unfold addInput at h
  split at h
  · rename_i hlt
    cases h
    simp only [consumes, getElem?_modify]
    by_cases hj : j = k
    · subst hj
      simp [getElem?_eq_getElem hlt.1]
    · simp [hj, Ne.symm hj]
  · cases h

theorem consumers_addInput {g g' : Graph} {k a : ℕ} (h : g.addInput k a = some g') (b : ℕ) :
    g'.consumers b = if b = a then g.consumers a ++ [k] else g.consumers b := by
  unfold addInput at h
  split at h
  · rename_i hlt
    cases h
    simp only [consumers, getElem?_modify]
    by_cases hb : b = a
    · subst hb
      simp [getElem?_eq_getElem hlt.2]
    · simp [hb, Ne.symm hb]
  · cases h

/-- A change of one artifact that keeps what well-formedness says of it. -/
theorem mem_modify {l : List Artifact} {i : ℕ} {f : Artifact → Artifact} {y : Artifact}
    (h : y ∈ l.modify i f) : y ∈ l ∨ ∃ x, l[i]? = some x ∧ y = f x := by
  obtain ⟨j, hj, rfl⟩ := getElem_of_mem h
  rw [length_modify] at hj
  rw [getElem_modify]
  split
  · rename_i hij
    subst hij
    exact .inr ⟨_, getElem?_eq_getElem hj, rfl⟩
  · exact .inl (getElem_mem hj)

theorem Wf.addInput {g g' : Graph} {k a : ℕ} (h : g.Wf hash) (hg : g.addInput k a = some g') :
    g'.Wf hash := by
  have hc := consumes_addInput hg
  have hs := consumers_addInput hg
  unfold Graph.addInput at hg
  split at hg
  swap
  · cases hg
  rename_i hlt
  cases hg
  refine ⟨fun j b => ?_, fun j b hb => ?_, fun b j hj => ?_, fun j b => ?_, fun j => ?_,
    fun y hy => ?_⟩
  · rw [hc, hs]
    have hm := h.mirror j b
    by_cases hj : j = k
    · subst hj
      by_cases hb : b = a
      · subst hb; simp [hm]
      · simp [hb, hm, Ne.symm hb]
    · by_cases hb : b = a
      · subst hb; simp [hj, hm, Ne.symm hj]
      · simp [hj, hb, hm]
  · rw [hc] at hb
    simp only [length_modify]
    split at hb
    · rcases mem_append.mp hb with hb | hb
      · exact h.inputs_lt k b hb
      · rw [mem_singleton.mp hb]; exact hlt.2
    · exact h.inputs_lt j b hb
  · rw [hs] at hj
    simp only [length_modify]
    split at hj
    · rcases mem_append.mp hj with hj | hj
      · exact h.consumers_lt a j hj
      · rw [mem_singleton.mp hj]; exact hlt.1
    · exact h.consumers_lt b j hj
  · have hp : (g.actions.modify k fun x => { x with consumes := x.consumes ++ [a] })[j]?.map
        (·.produces) = (g.actions[j]?).map (·.produces) := by
      rw [getElem?_modify]
      split <;> cases g.actions[j]? <;> rfl
    have hr : (g.artifacts.modify a fun x => { x with consumers := x.consumers ++ [k] })[b]?.bind
        (·.producer) = (g.artifacts[b]?).bind (·.producer) := by
      rw [getElem?_modify]
      split <;> cases g.artifacts[b]? <;> rfl
    have := h.mem_produces j b
    simp only [produces, producer, hp, hr] at this ⊢
    exact this
  · have hp : (g.actions.modify k fun x => { x with consumes := x.consumes ++ [a] })[j]?.map
        (·.produces) = (g.actions[j]?).map (·.produces) := by
      rw [getElem?_modify]
      split <;> cases g.actions[j]? <;> rfl
    have := h.nodup j
    simp only [produces, hp] at this ⊢
    exact this
  · rcases mem_modify hy with hy | ⟨x, hx, rfl⟩
    · exact h.artifact y hy
    · obtain ⟨h1, h2, h3, h4, h5, h6, h7, h8⟩ := h.artifact x (mem_of_getElem? hx)
      exact ⟨h1, h2, h3, h4, h5, h6, h7, h8⟩

@[simp] theorem consumes_setName (g : Graph) (a : ℕ) (name : Str) (k : ℕ) :
    (g.setName a name).consumes k = g.consumes k := rfl

@[simp] theorem produces_setName (g : Graph) (a : ℕ) (name : Str) (k : ℕ) :
    (g.setName a name).produces k = g.produces k := rfl

@[simp] theorem consumers_setName (g : Graph) (a : ℕ) (name : Str) (b : ℕ) :
    (g.setName a name).consumers b = g.consumers b := by
  simp only [consumers, setName, getElem?_modify]
  split <;> cases g.artifacts[b]? <;> rfl

@[simp] theorem producer_setName (g : Graph) (a : ℕ) (name : Str) (b : ℕ) :
    (g.setName a name).producer b = g.producer b := by
  simp only [producer, setName, getElem?_modify]
  split <;> cases g.artifacts[b]? <;> rfl

@[simp] theorem consumers_setProducer (g : Graph) (k a b : ℕ) :
    (g.setProducer k a).consumers b = g.consumers b := by
  simp only [consumers, setProducer, getElem?_modify]
  split <;> cases g.artifacts[b]? <;> rfl

@[simp] theorem consumes_setProducer (g : Graph) (k a j : ℕ) :
    (g.setProducer k a).consumes j = g.consumes j := by
  simp only [consumes, setProducer, getElem?_modify]
  split <;> cases g.actions[j]? <;> rfl

theorem producer_setProducer {g : Graph} {k a : ℕ} (ha : a < g.artifacts.length) (b : ℕ) :
    (g.setProducer k a).producer b = if b = a then some k else g.producer b := by
  simp only [producer, setProducer, getElem?_modify]
  by_cases hb : b = a
  · subst hb; simp [getElem?_eq_getElem ha]
  · simp [hb, Ne.symm hb]

theorem produces_setProducer {g : Graph} {k a : ℕ} (hk : k < g.actions.length) (j : ℕ) :
    (g.setProducer k a).produces j = if j = k then g.produces k ++ [a] else g.produces j := by
  simp only [produces, setProducer, getElem?_modify]
  by_cases hj : j = k
  · subst hj; simp [getElem?_eq_getElem hk]
  · simp [hj, Ne.symm hj]

/-- Naming an output changes nothing else well-formedness speaks of. -/
theorem Wf.setName {g : Graph} (h : g.Wf hash) {a : ℕ} {x : Artifact}
    (hx : g.artifacts[a]? = some x) : (g.setName a (outputName x)).Wf hash := by
  refine ⟨fun k b => ?_, fun k b hb => ?_, fun b k hk => ?_, fun k b => ?_, h.nodup, fun y hy => ?_⟩
  · simpa using h.mirror k b
  · simpa [Graph.setName] using h.inputs_lt k b hb
  · exact h.consumers_lt b k (by simpa using hk)
  · simpa using h.mem_produces k b
  · rcases mem_modify hy with hy | ⟨z, hz, rfl⟩
    · exact h.artifact y hy
    · obtain rfl : x = z := Option.some.inj (hx.symm.trans hz)
      obtain ⟨h1, h2, h3, h4, h5, h6, h7, h8⟩ := h.artifact x (mem_of_getElem? hz)
      refine ⟨h1, h2, h3, fun hv => ?_, h5, h6, fun he => ?_, fun hp => ?_⟩
      · obtain ⟨hn, hs⟩ := h4 hv
        simp [outputName, hn, hs, baseName]
      · change outputName x = [] ∨ outputName x = baseName x.path.sub
        rw [outputName]
        split
        · exact .inr rfl
        · exact h7 he
      · have hne := h8 hp
        change outputName x ≠ []
        rwa [outputName, if_neg hne]

/-- Recording the producer of an output that had none. -/
theorem Wf.setProducer {g : Graph} (h : g.Wf hash) {k a : ℕ} {x : Artifact}
    (hk : k < g.actions.length) (hx : g.artifacts[a]? = some x) (hnone : x.producer = none)
    (hv : x.kind ≠ .value) (hpin : x.path.empty = false → g.roots.pins x.path.root = false)
    (hroot : x.path.empty = false → x.path.root ≠ .none) (hname : x.name ≠ []) :
    (g.setProducer k a).Wf hash := by
  have ha : a < g.artifacts.length := by
    by_contra hlt
    rw [getElem?_eq_none (by omega)] at hx
    cases hx
  have hfree : ∀ i, a ∉ g.produces i := fun i hin => by
    rw [h.mem_produces] at hin
    simp [producer, hx, hnone] at hin
  refine ⟨fun j b => ?_, fun j b hb => ?_, fun b j hj => ?_, fun j b => ?_, fun j => ?_,
    fun y hy => ?_⟩
  · simpa using h.mirror j b
  · simpa [Graph.setProducer] using h.inputs_lt j b (by simpa using hb)
  · simpa [Graph.setProducer] using h.consumers_lt b j (by simpa using hj)
  · rw [producer_setProducer ha, produces_setProducer hk]
    have hm := h.mem_produces j b
    by_cases hb : b = a
    · subst hb
      by_cases hj : j = k
      · subst hj; simp
      · simp [hj, hfree j, Ne.symm hj]
    · by_cases hj : j = k
      · subst hj; simp [hb, hm]
      · simp [hj, hb, hm]
  · rw [produces_setProducer hk]
    split
    · refine nodup_append.mpr ⟨h.nodup k, nodup_singleton a, ?_⟩
      rintro b hb c hc rfl
      rw [mem_singleton.mp hc] at hb
      exact hfree k hb
    · exact h.nodup j
  · rcases mem_modify hy with hy | ⟨z, hz, rfl⟩
    · exact h.artifact y hy
    · obtain rfl : x = z := Option.some.inj (hx.symm.trans hz)
      obtain ⟨-, h2, h3, h4, -, -, h7, -⟩ := h.artifact x (mem_of_getElem? hz)
      exact ⟨fun he => absurd he hv, h2, h3, h4, fun _ => hpin, fun _ => hroot, h7, fun _ => hname⟩

theorem Wf.addActionOutput {g : Graph} {k a : ℕ} {r : Graph × Option Err} (h : g.Wf hash)
    (hr : g.addActionOutput k a = some r) : r.1.Wf hash := by
  unfold Graph.addActionOutput at hr
  split at hr
  swap
  · cases hr
  rename_i action x hact hx
  have hlt : k < g.actions.length := by
    by_contra hk
    rw [getElem?_eq_none (by omega)] at hact
    cases hact
  split at hr
  · cases hr; exact h
  rename_i hprod
  split at hr
  · cases hr
  rename_i hroot
  split at hr
  · cases hr; exact h
  rename_i hpin
  dsimp only at hr
  split at hr
  · cases hr; exact h.setName hx
  rename_i hname
  split at hr
  · cases hr; exact h.setName hx
  cases hr
  have hmod : (g.setName a (outputName x)).artifacts[a]? = some { x with name := outputName x } := by
    simp [Graph.setName, hx]
  refine (h.setName hx).setProducer hlt hmod (by simpa using hprod) (fun hv => ?_) (fun he => ?_)
    (fun he => ?_) (fun hnil => hname (.inl hnil))
  · -- a value has neither a name nor a path, so the name check refuses it
    obtain ⟨hn, hs⟩ := (h.artifact x (mem_of_getElem? hx)).named hv
    exact hname (.inl (by simp [outputName, hn, hs, baseName]))
  · simpa [he, Graph.setName] using hpin
  · simpa [he] using hroot

/-- Every graph the building calls make is well formed. -/
theorem Built.wf {roots : Roots} {g : Graph} (h : Built hash roots g) : g.Wf hash := by
  induction h with
  | new => exact wf_new roots
  | addPath _ hk hr ih => exact ih.addPath hk hr
  | addValue data _ ih =>
    exact ih.addArtifact rfl ⟨fun _ => ⟨rfl, data, rfl⟩, fun he => absurd rfl he, nofun,
      fun _ => ⟨rfl, rfl⟩, nofun, nofun, fun _ => .inl rfl, nofun⟩
  | addOutput name _ ih =>
    exact ih.addArtifact rfl
      ⟨nofun, fun _ => rfl, nofun, nofun, nofun, nofun, (fun he => by cases he), nofun⟩
  | addAction kind identity _ ih => exact ih.addAction kind identity
  | addInput _ hg ih => exact ih.addInput hg
  | addActionOutput _ hr ih => exact ih.addActionOutput hr

/-! ## What a run uses -/

theorem countP_mem_cons {a : ℕ} {outs : List ℕ} (ha : a ∉ outs) (l : List ℕ) :
    l.countP (fun b => b ∈ a :: outs) = l.count a + l.countP (fun b => b ∈ outs) := by
  induction l with
  | nil => simp
  | cons b l ih =>
    simp only [countP_cons, count_cons, ih]
    by_cases hb : b = a
    · subst hb; simp [ha]; omega
    · simp [hb]; omega

/-- Finishing an action lowers the counter of each consumer once for every
input the action produced. -/
theorem Wf.count_released {g : Graph} (h : g.Wf hash) (k j : ℕ) :
    ((g.produces k).flatMap g.consumers).count j =
      (g.consumes j).countP fun a => g.producer a = some k := by
  have key : ∀ outs : List ℕ, outs.Nodup →
      (outs.flatMap g.consumers).count j = (g.consumes j).countP fun a => a ∈ outs := by
    intro outs hn
    induction outs with
    | nil => simp
    | cons a outs ih =>
      obtain ⟨ha, hn⟩ := nodup_cons.mp hn
      rw [flatMap_cons, count_append, ih hn, h.mirror, countP_mem_cons ha]
  rw [key _ (h.nodup k)]
  congr 1
  funext a
  simp [h.mem_produces]

end Spn.Dag.Graph
