import Spn.Dag.Files
import Spn.Paths.Within

/-! # Outputs apart

What `spn_dag_validate` promises of a graph it finds nothing wrong with: the tables a run begins
with are made without an assertion failing, and nothing lies in a tree output. The checks see the
directories above a path by two functions, `spn_path_within` and `spn_path_parent`.
-/
namespace Spn.Dag

open Function

/-! ## The tables of targets -/

/-- `spn_dag_targets_t`. A directory that has no list yet has the empty one. -/
structure Targets where
  byPath : Path → Option Target
  below : Path → List ℕ

/-- The entry of an output at its path, and its producer in the list of each directory above. -/
def Targets.put (t : Targets) (x : Artifact) (k : ℕ) : Targets where
  byPath := update t.byPath x.path (some ⟨k, x.kind⟩)
  below :=
    x.path.ancestors.foldl (fun below dir => update below dir (below dir ++ [k])) t.below

/-- What `targets_init` does with one artifact; nothing when an assertion fails. -/
def Targets.add (roots : Roots) (t : Targets) (x : Artifact) : Option Targets :=
  match x.producer with
  | none => some t
  | some k =>
    if x.path.empty then some t
    else if roots.pins x.path.root then none
    else if (t.byPath x.path).isSome then none
    else some (t.put x k)

/-- `targets_init`. -/
def Graph.targetsInit (g : Graph) : Option Targets :=
  g.artifacts.foldlM (Targets.add g.roots) ⟨fun _ => none, fun _ => []⟩

/-- `spn_dag_output_overlaps`. -/
def Artifact.outputOverlaps (x : Artifact) (path : Path) : Bool :=
  x.producer.isSome &&
    ((Path.within path x.path).within || (x.kind = .tree && (Path.within x.path path).within))

/-- The entry an artifact makes at a path. -/
def Artifact.targetAt (p : Path) (x : Artifact) : Option Target :=
  match x.producer with
  | some k => if x.path.empty = false ∧ x.path = p then some ⟨k, x.kind⟩ else none
  | none => none

/-- The entry an artifact makes in the list of a directory. -/
def Artifact.producerBelow (dir : Path) (x : Artifact) : Option ℕ :=
  match x.producer with
  | some k => if x.path.empty = false ∧ dir ∈ x.path.ancestors then some k else none
  | none => none

theorem Graph.byPath_eq (g : Graph) (p : Path) :
    g.byPath p = g.artifacts.findSome? (Artifact.targetAt p) := rfl

theorem Graph.below_eq (g : Graph) (dir : Path) :
    g.below dir = g.artifacts.filterMap (Artifact.producerBelow dir) := rfl

theorem foldl_push {dirs : List Path} (hdirs : dirs.Nodup) (k : ℕ) (below : Path → List ℕ)
    (dir : Path) :
    dirs.foldl (fun below dir => update below dir (below dir ++ [k])) below dir =
      below dir ++ if dir ∈ dirs then [k] else [] := by
  induction dirs generalizing below with
  | nil => simp
  | cons d dirs ih =>
    obtain ⟨hd, hdirs⟩ := List.nodup_cons.1 hdirs
    rw [List.foldl_cons, ih hdirs]
    by_cases heq : dir = d
    · subst heq
      simp [hd]
    · simp [heq]

theorem Targets.put_below (t : Targets) (x : Artifact) (k : ℕ) (dir : Path) :
    (t.put x k).below dir = t.below dir ++ if dir ∈ x.path.ancestors then [k] else [] :=
  foldl_push x.path.nodup_ancestors k t.below dir

theorem Targets.put_byPath (t : Targets) (x : Artifact) (k : ℕ) (p : Path) :
    (t.put x k).byPath p = if p = x.path then some ⟨k, x.kind⟩ else t.byPath p :=
  update_apply t.byPath x.path _ p

/-- An output with a path of its own. -/
def Artifact.Placed (x : Artifact) : Prop := x.producer.isSome ∧ x.path.empty = false

/-- The tables are made where no output is under a pinned root and no two are at one path. -/
theorem foldlM_add {roots : Roots} {l : List Artifact} {t : Targets}
    (hfree : ∀ x ∈ l, x.Placed → roots.pins x.path.root = false ∧ t.byPath x.path = none)
    (hapart : l.Pairwise fun x y => x.Placed → y.Placed → x.path ≠ y.path) :
    ∃ t', l.foldlM (Targets.add roots) t = some t' ∧
      (∀ p, t'.byPath p = (t.byPath p).or (l.findSome? (Artifact.targetAt p))) ∧
      ∀ dir, t'.below dir = t.below dir ++ l.filterMap (Artifact.producerBelow dir) := by
  induction l generalizing t with
  | nil => exact ⟨t, rfl, by simp, by simp⟩
  | cons x l ih =>
    obtain ⟨hx, hl⟩ := List.pairwise_cons.1 hapart
    have htail := fun y hy => hfree y (List.mem_cons_of_mem x hy)
    rw [List.foldlM_cons]
    by_cases hplaced : x.Placed
    · obtain ⟨hpin, hnone⟩ := hfree x List.mem_cons_self hplaced
      obtain ⟨k, hk⟩ := Option.isSome_iff_exists.1 hplaced.1
      have hadd : Targets.add roots t x = some (t.put x k) := by
        simp [Targets.add, hk, hplaced.2, hpin, hnone]
      rw [hadd, Option.bind_eq_bind, Option.bind_some]
      obtain ⟨t', ht', hby, hbelow⟩ := @ih (t.put x k) (fun y hy hyp => by
        rw [Targets.put_byPath, if_neg (hx y hy hplaced hyp).symm]
        exact htail y hy hyp) hl
      refine ⟨t', ht', fun p => ?_, fun dir => ?_⟩
      · rw [hby, Targets.put_byPath, List.findSome?_cons]
        by_cases hp : p = x.path
        · subst hp
          simp [Artifact.targetAt, hk, hplaced.2, hnone]
        · simp [Artifact.targetAt, hk, hp, Ne.symm hp]
      · rw [hbelow, Targets.put_below, List.append_assoc, List.filterMap_cons]
        congr 1
        by_cases hdir : dir ∈ x.path.ancestors
        · simp [Artifact.producerBelow, hk, hplaced.2, hdir]
        · simp [Artifact.producerBelow, hk, hdir]
    · have hskip : Targets.add roots t x = some t ∧
          (∀ p, x.targetAt p = none) ∧ ∀ dir, x.producerBelow dir = none := by
        cases hk : x.producer with
        | none => simp [Targets.add, Artifact.targetAt, Artifact.producerBelow, hk]
        | some k =>
          have hempty : x.path.empty = true := by
            by_contra hfull
            exact hplaced ⟨by rw [hk]; rfl, Bool.eq_false_iff.2 hfull⟩
          simp [Targets.add, Artifact.targetAt, Artifact.producerBelow, hk, hempty]
      obtain ⟨hadd, htarget, hbelow⟩ := hskip
      rw [hadd, Option.bind_eq_bind, Option.bind_some]
      obtain ⟨t', ht', hby', hbelow'⟩ := ih htail hl
      refine ⟨t', ht', fun p => ?_, fun dir => ?_⟩
      · rw [hby', List.findSome?_cons, htarget]
      · rw [hbelow', List.filterMap_cons, hbelow]

/-! ## A graph that validates -/

namespace Graph

variable {hash : List UInt8 → Digest} {g : Graph}

/-- What is found wrong with no artifact of a graph that validates. -/
theorem violation_none (hv : g.validate = none) {i : ℕ} {x : Artifact}
    (hx : g.artifacts[i]? = some x) : g.violation i x = none := by
  refine List.findSome?_eq_none_iff.1 hv (x, i) ?_
  rw [List.mem_zipIdx_iff_getElem?]
  exact hx

/-- Every artifact with a path is the one the table has there. -/
theorem findPath_of_validate (hv : g.validate = none) {i : ℕ} {x : Artifact}
    (hx : g.artifacts[i]? = some x) (hpath : x.path.empty = false) :
    g.findPath x.path = some i := by
  have hnone := violation_none hv hx
  by_contra hne
  simp [violation, hpath, hne] at hnone

/-- No two artifacts are at one path. -/
theorem path_unique (hv : g.validate = none) {i j : ℕ} {x y : Artifact}
    (hx : g.artifacts[i]? = some x) (hy : g.artifacts[j]? = some y)
    (hpath : x.path.empty = false) (heq : x.path = y.path) : i = j := by
  have hfind := findPath_of_validate hv hx hpath
  rw [heq, findPath_of_validate hv hy (heq ▸ hpath)] at hfind
  exact (Option.some.inj hfind).symm

/-- The directories looked at are those of the walk that are not the root itself. -/
theorem mem_dirsAbove {p d : Path} : d ∈ dirsAbove p ↔ d ∈ p.ancestors ∧ d.sub ≠ [] := by
  generalize hn : p.sub.length = n
  induction n using Nat.strong_induction_on generalizing p with
  | _ n ih =>
    rw [dirsAbove]
    cases hup : p.up with
    | none => simp [Path.ancestors_of_up_none hup]
    | some q =>
      have hlt := Path.up_length hup
      have hrest := ih q.sub.length (by omega) rfl
      rw [dirsAbove] at hrest
      rw [Path.ancestors_of_up_some hup]
      by_cases hq : q.sub = []
      · rw [List.takeWhile_cons_of_neg (by simpa using hq)]
        constructor
        · intro hmem
          cases hmem
        · intro hmem
          obtain rfl | htail := List.mem_cons.1 hmem.1
          · exact absurd hq hmem.2
          · have hshort := (Path.mem_ancestors htail).1
            rw [hq] at hshort
            cases hshort
      · rw [List.takeWhile_cons_of_pos (by simpa using hq), List.mem_cons, List.mem_cons, hrest]
        constructor
        · rintro (rfl | hmem)
          · exact ⟨.inl rfl, hq⟩
          · exact ⟨.inr hmem.1, hmem.2⟩
        · rintro ⟨rfl | hmem, hd⟩
          · exact .inl rfl
          · exact .inr ⟨hmem, hd⟩

/-- An output with a path is under a root and has a name of its own there. -/
theorem ArtifactWf.sub_ne_nil {roots : Roots} {x : Artifact} (h : ArtifactWf hash roots x)
    (hplaced : x.Placed) : x.path.sub ≠ [] := by
  intro hsub
  have hname := h.output hplaced.1
  obtain hnil | hbase := h.label hplaced.2
  · exact hname hnil
  · rw [hsub] at hbase
    exact hname hbase

/-- Nothing lies in a tree output. -/
theorem tree_not_above (hg : g.Wf hash) (hv : g.validate = none) {x y : Artifact}
    (hx : x ∈ g.artifacts) (hy : y ∈ g.artifacts) (htree : y.kind = .tree) :
    y.path ∉ x.path.ancestors := by
  intro habove
  obtain ⟨i, hi⟩ := List.mem_iff_getElem?.1 hx
  obtain ⟨j, hj⟩ := List.mem_iff_getElem?.1 hy
  have hwf := hg.artifact y hy
  have hpath : y.path.empty = false := hwf.tree htree
  have hprod : y.producer.isSome = true := by
    have hnone := violation_none hv hj
    by_contra hno
    rw [Option.not_isSome_iff_eq_none] at hno
    simp [violation, hpath, findPath_of_validate hv hj hpath, htree, hno] at hnone
  obtain ⟨hshort, hroot⟩ := Path.mem_ancestors habove
  have hfull : x.path.empty = false := by
    by_contra hempty
    rw [Bool.not_eq_false] at hempty
    have hnil : x.path.sub = [] := by simpa using (of_decide_eq_true hempty).2
    rw [hnil] at hshort
    cases hshort
  have hnamed : x.path.root ≠ .none := hroot ▸ hwf.rooted hprod hpath
  have hin : (dirsAbove x.path).any (fun d => (g.findPath d).any g.isTree) = true := by
    refine List.any_eq_true.2 ⟨y.path, mem_dirsAbove.2 ⟨habove, hwf.sub_ne_nil ⟨hprod, hpath⟩⟩, ?_⟩
    rw [findPath_of_validate hv hj hpath, Option.any_some, isTree, hj]
    exact decide_eq_true (by rw [Option.map_some, htree])
  have hnone := violation_none hv hi
  rw [violation] at hnone
  simp only [hfull, findPath_of_validate hv hi hfull, hnamed, hin, Bool.false_eq_true,
    if_false, ne_eq, not_true_eq_false, not_false_eq_true, and_self, if_true] at hnone
  split_ifs at hnone

/-- The tables made are those a run uses. -/
theorem targetsInit_of_validate (hg : g.Wf hash) (hv : g.validate = none) :
    ∃ t, g.targetsInit = some t ∧ t.byPath = g.byPath ∧ t.below = g.below := by
  have hapart : g.artifacts.Pairwise fun x y => x.Placed → y.Placed → x.path ≠ y.path := by
    rw [List.pairwise_iff_getElem]
    intro i j hi hj hlt hx hy heq
    have hsame := path_unique hv (List.getElem?_eq_getElem hi) (List.getElem?_eq_getElem hj) hx.2 heq
    omega
  obtain ⟨t, ht, hby, hbelow⟩ := @foldlM_add g.roots g.artifacts ⟨fun _ => none, fun _ => []⟩
    (fun x hx hplaced => ⟨(hg.artifact x hx).unpinned hplaced.1 hplaced.2, rfl⟩) hapart
  exact ⟨t, ht, funext fun p => by rw [hby, byPath_eq, Option.none_or],
    funext fun dir => by rw [hbelow, below_eq, List.nil_append]⟩

/-- A graph that validates: the assertions of `targets_init` hold, one artifact is at a path, and
no path, of a consumed file or another artifact, is in a tree output. A file output does not keep
paths from lying below it. -/
theorem validated_apart {roots : Roots} (h : Built hash roots g) (hv : g.validate = none) :
    (∃ t, g.targetsInit = some t ∧ t.byPath = g.byPath ∧ t.below = g.below) ∧
      (∀ (i j : ℕ) (x y : Artifact), g.artifacts[i]? = some x → g.artifacts[j]? = some y →
        x.path.empty = false → x.path = y.path → i = j) ∧
      (∀ x ∈ g.artifacts, ∀ y ∈ g.artifacts, y.kind = .tree → y.path ∉ x.path.ancestors) ∧
      ∀ k, ∀ a ∈ g.consumes k, ∀ x, g.artifacts[a]? = some x → ∀ y ∈ g.artifacts,
        y.producer.isSome → y.path ∈ x.path.ancestors → y.kind = .file := by
  refine ⟨targetsInit_of_validate h.wf hv, fun i j x y hx hy => path_unique hv hx hy,
    fun x hx y hy => tree_not_above h.wf hv hx hy, fun k a _ x hx y hy hprod habove => ?_⟩
  cases hkind : y.kind with
  | file => rfl
  | tree => exact absurd habove (tree_not_above h.wf hv (List.mem_of_getElem? hx) hy hkind)
  | value =>
    rw [((h.wf.artifact y hy).value hkind).1] at hprod
    cases hprod

/-- A file output `a`, and an action that consumes `a/b`. -/
def nestedGraph : Graph where
  roots := ⟨fun _ => [], 0⟩
  artifacts :=
    [⟨.file, str "a", ⟨.build, str "a"⟩, .zero, some 0, []⟩,
      ⟨.file, [], ⟨.build, str "a/b"⟩, .zero, none, [1]⟩]
  actions := [⟨.static, .zero, [], [0]⟩, ⟨.static, .zero, [1], []⟩]
  paths := [(⟨.build, str "a"⟩, 0), (⟨.build, str "a/b"⟩, 1)]

theorem nestedGraph_built (hash : List UInt8 → Digest) :
    Built hash nestedGraph.roots nestedGraph :=
  .addInput (k := 1) (a := 1)
    (.addAction .static .zero
      (.addPath (p := ⟨.build, str "a/b"⟩) (t := .file)
        (.addActionOutput (k := 0) (a := 0)
          (.addAction .static .zero
            (.addPath (g := Graph.new nestedGraph.roots) (p := ⟨.build, str "a"⟩) (t := .file)
              .new (by decide) rfl))
          rfl)
        (by decide) rfl))
    rfl

theorem nestedGraph_validates : nestedGraph.validate = none := by decide +kernel

theorem validated_nestedGraph :
    (∃ t, nestedGraph.targetsInit = some t ∧ t.byPath = nestedGraph.byPath ∧
        t.below = nestedGraph.below) ∧
      ∀ x ∈ nestedGraph.artifacts, ∀ y ∈ nestedGraph.artifacts, y.kind = .tree →
        y.path ∉ x.path.ancestors :=
  have h := validated_apart (nestedGraph_built fun _ => .zero) nestedGraph_validates
  ⟨h.1, h.2.2.1⟩

/-- A path below the path of a file output, and consumed: nothing is found wrong with it. -/
theorem file_below_file :
    ∃ g, Built (fun _ => .zero) nestedGraph.roots g ∧ g.validate = none ∧
      ∃ x ∈ g.artifacts, ∃ y ∈ g.artifacts, y.producer = some 0 ∧ y.path ∈ x.path.ancestors ∧
        ∃ a ∈ g.consumes 1, g.artifacts[a]? = some x := by
  refine ⟨nestedGraph, nestedGraph_built _, nestedGraph_validates, _,
    List.mem_of_getElem? (i := 1) rfl, _, List.mem_of_getElem? (i := 0) rfl, rfl, ?_, 1, ?_, rfl⟩
  · decide +kernel
  · decide

/-! ## One sight of the directories above -/

/-- Outputs are under named roots, so the comparison and the walks see the same directories. -/
theorem outputOverlaps_iff {L : FsLib} (hL : L.Documented) (hg : g.Wf hash) {x : Artifact}
    (hx : x ∈ g.artifacts) (hplace : x.path.Normal L) {path : Path} (hp : path.Normal L) :
    x.outputOverlaps path = true ↔ x.producer.isSome ∧
      (path = x.path ∨ path ∈ x.path.ancestors ∨ x.kind = .tree ∧ x.path ∈ path.ancestors) := by
  rw [Artifact.outputOverlaps, Bool.and_eq_true]
  refine and_congr_right fun hprod => ?_
  have hroot := (hg.artifact x hx).rooted hprod hplace.nonempty
  have hbelow : ¬Path.Overlooked path x.path := fun hover => hroot hover.2.2.1
  have habove : ¬Path.Overlooked x.path path := fun hover => hroot (by rw [hover.1])
  rw [Bool.or_eq_true, Bool.and_eq_true, decide_eq_true_iff, hplace.within_iff hL, hp.within_iff hL]
  constructor
  · rintro (⟨hself | hin, -⟩ | ⟨htree, hself | hin, -⟩)
    · exact .inl hself
    · exact .inr (.inl hin)
    · exact .inl hself.symm
    · exact .inr (.inr ⟨htree, hin⟩)
  · rintro (hself | hin | ⟨htree, hin⟩)
    · exact .inl ⟨.inl hself, hbelow⟩
    · exact .inl ⟨.inr hin, hbelow⟩
    · exact .inr ⟨htree, .inr hin, habove⟩

/-- The comparison and the walk to the parents agree on two paths unless the first is `/` and the
second goes on from it. The outputs of a graph are not of that kind: the test for overlaps sees
what the walks of `targets_init` and `defer_observations` see, and the walk of `spn_dag_validate`
what the comparison finds. -/
theorem within_agrees_iff {L : FsLib} (hL : L.Documented)
    (hslash : L.joinPath [slash] [] = [slash]) {base path : Path} (hb : base.Normal L)
    (hp : path.Normal L) :
    (Path.Agrees L base path ↔ ¬(base = ⟨.none, [slash]⟩ ∧ path ≠ base ∧ path.root = .none ∧
        path.sub.head? = some slash)) ∧
      (∀ hash roots g, Built hash roots g → ∀ x ∈ g.artifacts, x.path = base →
        (x.outputOverlaps path = true ↔ x.producer.isSome ∧
          (path = base ∨ path ∈ base.ancestors ∨ x.kind = .tree ∧ base ∈ path.ancestors))) ∧
      (path.root ≠ .none → (base ∈ dirsAbove path ↔
        base.sub ≠ [] ∧ base ≠ path ∧ (Path.within base path).within = true)) := by
  refine ⟨Path.agrees_iff_not_overlooked hL hslash hb hp, ?_, fun hroot => ?_⟩
  · rintro hash roots g hg x hx rfl
    exact outputOverlaps_iff hL hg.wf hx hb hp
  · have hno : ¬Path.Overlooked base path := fun hover => hroot hover.2.2.1
    rw [mem_dirsAbove, hp.within_iff hL]
    constructor
    · rintro ⟨hin, hsub⟩
      refine ⟨hsub, ?_, .inr hin, hno⟩
      rintro rfl
      exact Path.self_not_mem_ancestors _ hin
    · rintro ⟨hsub, hne, hself | hin, -⟩
      · exact absurd hself hne
      · exact ⟨hin, hsub⟩

theorem within_agrees_src :
    Path.Agrees Roots.posix ⟨.project, []⟩ ⟨.project, str "src/a"⟩ ↔
      ¬((⟨.project, []⟩ : Path) = ⟨.none, [slash]⟩ ∧
        (⟨.project, str "src/a"⟩ : Path) ≠ ⟨.project, []⟩ ∧
        (⟨.project, str "src/a"⟩ : Path).root = .none ∧
        (⟨.project, str "src/a"⟩ : Path).sub.head? = some slash) :=
  (within_agrees_iff Roots.posix_documented rfl
    (Path.normal_posix rfl rfl fun _ => by decide)
    (Path.normal_posix rfl (by decide +kernel) fun _ => by decide +kernel)).1

/-- `/` is the parent of `/a`, and `/a` is not found within it. -/
theorem root_not_within :
    (Path.within ⟨.none, [slash]⟩ ⟨.none, str "/a"⟩).within = false ∧
      (⟨.none, str "/a"⟩ : Path).parent = ⟨.none, [slash]⟩ ∧
      ¬Path.Agrees Roots.posix ⟨.none, [slash]⟩ ⟨.none, str "/a"⟩ := by
  have hout : (Path.within ⟨.none, [slash]⟩ ⟨.none, str "/a"⟩).within = false := by decide +kernel
  have hparent : (⟨.none, str "/a"⟩ : Path).parent = ⟨.none, [slash]⟩ := by decide +kernel
  refine ⟨hout, hparent, fun hagrees => ?_⟩
  have hin := hagrees.1.2 ⟨1, hparent⟩
  rw [hout] at hin
  cases hin

end Graph
end Spn.Dag
