import Spn.Link.Closure

/-! # What the walks of the link closure find

Each walk of `unit/link.c` is a walk of the library over its own graph; from there come
what is listed, that it is listed once, and its order.
-/
namespace Spn.Link

open Spn.Lib Spn.Lib.PostOrder
open Spn.Resolve (DepKind Linkage)

namespace Units

variable {P T : Type} [DecidableEq P] [DecidableEq T] (u : Units P T)

/-! ## The graphs of the walks -/

/-- The edges `collect` follows from a package: below the package of the root its tests
and build scripts do not count, and a shared library ends the way. -/
def follow (root : T) (p : P) : List (PkgDep P) :=
  if p = (u.target root).pkg then
    (u.pkg p).deps.filter fun dep => edgeLinks dep (u.rootTests root) (u.rootBuilds root)
  else if u.pkgIsSharedBoundary p then []
  else (u.pkg p).deps.filter fun dep => edgeLinks dep false false

/-- The edges `collect_runtime` follows. -/
def followRuntime (root : T) (p : P) : List (PkgDep P) :=
  if p = (u.target root).pkg then
    (u.pkg p).deps.filter fun dep => edgeLinks dep (u.rootTests root) (u.rootBuilds root)
  else (u.pkg p).deps.filter fun dep => edgeLinks dep false false

/-- The graph of `collect`. -/
def linkNet (root : T) : Net P (PkgDep P) Bool where
  next := u.follow root
  dst := PkgDep.unit
  step isPrivate dep := isPrivate || dep.isPrivate

/-- The graph of `collect_runtime`. -/
def runtimeNet (root : T) : Net P (PkgDep P) Unit where
  next := u.followRuntime root
  dst := PkgDep.unit
  step _ _ := ()

/-- The graph of `collect_siblings`. -/
def siblingNet : Net T T Unit where
  next target := if u.siblingCodeLinks target then (u.target target).deps else []
  dst := id
  step _ _ := ()

/-- The graph of `collect_runtime_siblings`. -/
def targetNet : Net T T Unit where
  next target := (u.target target).deps
  dst := id
  step _ _ := ()

/-- A followed edge from a package to another. -/
def Follows (root : T) : P → P → Prop := (u.linkNet root).Edge

/-- An edge the way to the runtime libraries follows. -/
def FollowsRuntime (root : T) : P → P → Prop := (u.runtimeNet root).Edge

/-- A target that another one names. -/
def Names (a b : T) : Prop := b ∈ (u.target a).deps

/-- No package depends on itself. -/
def PkgAcyclic : Prop :=
  ∀ p, ¬Relation.TransGen (fun a b => ∃ dep ∈ (u.pkg a).deps, dep.unit = b) p p

/-- No target depends on itself. -/
def TargetAcyclic : Prop := ∀ t, ¬Relation.TransGen u.Names t t

section

variable {u} {root : T}

omit [DecidableEq T] in
theorem mem_deps_of_follow {p : P} {dep : PkgDep P} (h : dep ∈ u.follow root p) :
    dep ∈ (u.pkg p).deps := by
  unfold follow at h
  split_ifs at h
  · exact List.mem_of_mem_filter h
  · exact absurd h List.not_mem_nil
  · exact List.mem_of_mem_filter h

omit [DecidableEq T] in
theorem mem_deps_of_followRuntime {p : P} {dep : PkgDep P} (h : dep ∈ u.followRuntime root p) :
    dep ∈ (u.pkg p).deps := by
  unfold followRuntime at h
  split_ifs at h
  · exact List.mem_of_mem_filter h
  · exact List.mem_of_mem_filter h

omit [DecidableEq T] in
theorem follow_root : u.follow root (u.target root).pkg =
    (u.pkg (u.target root).pkg).deps.filter fun dep =>
      edgeLinks dep (u.rootTests root) (u.rootBuilds root) := if_pos rfl

omit [DecidableEq T] in
theorem followRuntime_root : u.followRuntime root (u.target root).pkg =
    (u.pkg (u.target root).pkg).deps.filter fun dep =>
      edgeLinks dep (u.rootTests root) (u.rootBuilds root) := if_pos rfl

omit [DecidableEq T] in
theorem PkgAcyclic.linkNet (h : u.PkgAcyclic) : (u.linkNet root).Acyclic := by
  intro p hp
  refine h p (Relation.TransGen.mono (fun a b hab => ?_) p p hp)
  obtain ⟨dep, hdep, hb⟩ := hab
  exact ⟨dep, mem_deps_of_follow hdep, hb⟩

omit [DecidableEq T] in
theorem PkgAcyclic.runtimeNet (h : u.PkgAcyclic) : (u.runtimeNet root).Acyclic := by
  intro p hp
  refine h p (Relation.TransGen.mono (fun a b hab => ?_) p p hp)
  obtain ⟨dep, hdep, hb⟩ := hab
  exact ⟨dep, mem_deps_of_followRuntime hdep, hb⟩

omit [DecidableEq P] [DecidableEq T] in
theorem edge_targetNet {a b : T} : u.targetNet.Edge a b ↔ u.Names a b := by
  simp [Net.Edge, targetNet, Names]

omit [DecidableEq P] [DecidableEq T] in
theorem edge_siblingNet {a b : T} :
    u.siblingNet.Edge a b ↔ u.siblingCodeLinks a = true ∧ u.Names a b := by
  unfold Net.Edge siblingNet Names
  by_cases h : u.siblingCodeLinks a = true <;> simp [h]

omit [DecidableEq P] [DecidableEq T] in
theorem TargetAcyclic.siblingNet (h : u.TargetAcyclic) : u.siblingNet.Acyclic :=
  fun t ht => h t (Relation.TransGen.mono (fun _ _ hab => (edge_siblingNet.1 hab).2) t t ht)

omit [DecidableEq P] [DecidableEq T] in
theorem transGen_of_sibling {t : T} (h : u.siblingNet.From (u.target root).deps t) :
    Relation.TransGen u.Names root t := by
  obtain ⟨dep, hdep, hreach⟩ := h
  have hnames : Relation.ReflTransGen u.Names dep t :=
    Relation.ReflTransGen.mono (fun _ _ hab => (edge_siblingNet.1 hab).2) dep t hreach
  exact .head' hdep hnames

/-! ## The loops are walks -/

omit [DecidableEq T] in
/-- `collect` walks, where the package of the root is seen. -/
theorem collect_eq_walk {depth : ℕ} {p : P} {isPrivate tests builds : Bool} {s : Trail P Bool}
    (h : (u.target root).pkg ∈ s.visited) :
    u.collect depth p isPrivate tests builds s =
      walk (u.linkNet root) depth isPrivate
        ((u.pkg p).deps.filter fun dep => edgeLinks dep tests builds) s := by
  induction depth generalizing p isPrivate tests builds s with
  | zero => rfl
  | succ depth ih =>
    unfold collect walk
    induction (u.pkg p).deps generalizing s with
    | nil => rfl
    | cons dep deps ihdeps =>
      rw [List.foldl_cons]
      by_cases hedge : edgeLinks dep tests builds = true
      · rw [List.filter_cons, if_pos hedge, List.foldl_cons]
        simp only [hedge, Bool.not_true, Bool.false_eq_true, if_false]
        by_cases hseen : dep.unit ∈ s.visited
        · have hdst : (u.linkNet root).dst dep ∈ s.visited := hseen
          rw [if_pos hseen, if_pos hdst]
          exact ihdeps h
        · have hdst : (u.linkNet root).dst dep ∉ s.visited := hseen
          rw [if_neg hseen, if_neg hdst]
          have hne : dep.unit ≠ (u.target root).pkg := fun heq => hseen (heq ▸ h)
          have hdown : (if u.pkgIsSharedBoundary dep.unit then
                { s with visited := dep.unit :: s.visited }
              else u.collect depth dep.unit (isPrivate || dep.isPrivate) false false
                { s with visited := dep.unit :: s.visited }) =
              walk (u.linkNet root) depth (isPrivate || dep.isPrivate)
                (u.follow root dep.unit) { s with visited := dep.unit :: s.visited } := by
            unfold follow
            rw [if_neg hne]
            split_ifs
            · exact (walk_nil depth _ _).symm
            · exact ih (List.mem_cons_of_mem _ h)
          rw [hdown]
          exact ihdeps (mem_walk_visited (List.mem_cons_of_mem _ h))
      · rw [List.filter_cons, if_neg hedge]
        simp only [hedge, Bool.not_false, if_true]
        exact ihdeps h

omit [DecidableEq T] in
/-- `collect_runtime` walks, where the package of the root is seen. -/
theorem collectRuntime_eq_walk {depth : ℕ} {p : P} {tests builds : Bool} {s : Trail P Unit}
    (h : (u.target root).pkg ∈ s.visited) :
    u.collectRuntime depth p tests builds s =
      walk (u.runtimeNet root) depth ()
        ((u.pkg p).deps.filter fun dep => edgeLinks dep tests builds) s := by
  induction depth generalizing p tests builds s with
  | zero => rfl
  | succ depth ih =>
    unfold collectRuntime walk
    induction (u.pkg p).deps generalizing s with
    | nil => rfl
    | cons dep deps ihdeps =>
      rw [List.foldl_cons]
      by_cases hedge : edgeLinks dep tests builds = true
      · rw [List.filter_cons, if_pos hedge, List.foldl_cons]
        simp only [hedge, Bool.not_true, Bool.false_eq_true, if_false]
        by_cases hseen : dep.unit ∈ s.visited
        · have hdst : (u.runtimeNet root).dst dep ∈ s.visited := hseen
          rw [if_pos hseen, if_pos hdst]
          exact ihdeps h
        · have hdst : (u.runtimeNet root).dst dep ∉ s.visited := hseen
          rw [if_neg hseen, if_neg hdst]
          have hne : dep.unit ≠ (u.target root).pkg := fun heq => hseen (heq ▸ h)
          have hdown : u.collectRuntime depth dep.unit false false
                { s with visited := dep.unit :: s.visited } =
              walk (u.runtimeNet root) depth () (u.followRuntime root dep.unit)
                { s with visited := dep.unit :: s.visited } := by
            unfold followRuntime
            rw [if_neg hne]
            exact ih (List.mem_cons_of_mem _ h)
          rw [hdown]
          exact ihdeps (mem_walk_visited (List.mem_cons_of_mem _ h))
      · rw [List.filter_cons, if_neg hedge]
        simp only [hedge, Bool.not_false, if_true]
        exact ihdeps h

omit [DecidableEq P] in
theorem collectSiblings_eq_walk {depth : ℕ} {target : T} {s : Trail T Unit} :
    u.collectSiblings depth target s =
      walk u.siblingNet depth () (u.target target).deps s := by
  induction depth generalizing target s with
  | zero => rfl
  | succ depth ih =>
    unfold collectSiblings walk
    induction (u.target target).deps generalizing s with
    | nil => rfl
    | cons dep deps ihdeps =>
      rw [List.foldl_cons, List.foldl_cons, ← ihdeps]
      by_cases hseen : dep ∈ s.visited
      · have hdst : u.siblingNet.dst dep ∈ s.visited := hseen
        rw [if_pos hseen, if_pos hdst]
      · have hdst : u.siblingNet.dst dep ∉ s.visited := hseen
        rw [if_neg hseen, if_neg hdst]
        have hdown : (if u.siblingCodeLinks dep then
              u.collectSiblings depth dep { s with visited := dep :: s.visited }
            else { s with visited := dep :: s.visited }) =
            walk u.siblingNet depth () (u.siblingNet.next dep)
              { s with visited := dep :: s.visited } := by
          unfold siblingNet
          simp only
          split_ifs
          · exact ih
          · exact (walk_nil depth _ _).symm
        simp only [hdown]
        rfl

omit [DecidableEq P] in
/-- `collect_runtime_siblings` sees what a walk sees, and has pushed that in its order. -/
theorem collectRuntimeSiblings_eq_walk {depth : ℕ} {target : T} {s : Trail T Unit} {libs : List T} :
    ∃ t : Trail T Unit, t = walk u.targetNet depth () (u.target target).deps s ∧
      ∃ pre, t.visited = pre ++ s.visited ∧
        u.collectRuntimeSiblings depth target (s.visited, libs) =
          (t.visited, pre.reverse.foldl u.pushUniqueRuntimeLib libs) := by
  refine ⟨_, rfl, ?_⟩
  induction depth generalizing target s libs with
  | zero => exact ⟨[], rfl, rfl⟩
  | succ depth ih =>
    unfold collectRuntimeSiblings walk
    induction (u.target target).deps generalizing s libs with
    | nil => exact ⟨[], rfl, rfl⟩
    | cons dep deps ihdeps =>
      simp only [List.foldl_cons]
      by_cases hseen : dep ∈ s.visited
      · have hdst : u.targetNet.dst dep ∈ s.visited := hseen
        rw [if_pos hseen, if_pos hdst]
        exact ihdeps
      · have hdst : u.targetNet.dst dep ∉ s.visited := hseen
        rw [if_neg hseen, if_neg hdst]
        obtain ⟨pre, hpre, hrun⟩ := ih (s := { s with visited := dep :: s.visited })
         
        have hwalk : walk u.targetNet depth (u.targetNet.step () dep)
            (u.targetNet.next (u.targetNet.dst dep))
            { s with visited := u.targetNet.dst dep :: s.visited } =
          walk u.targetNet depth () (u.target dep).deps { s with visited := dep :: s.visited } := rfl
        rw [hwalk]
        generalize walk u.targetNet depth () (u.target dep).deps
          { s with visited := dep :: s.visited } = t at hpre hrun ⊢
        obtain ⟨post, hpost, hrest⟩ := ihdeps
          (s := { t with order := t.order ++ [(u.targetNet.dst dep, u.targetNet.step () dep)] })
         
        refine ⟨post ++ pre ++ [dep], ?_, ?_⟩
        · rw [hpost]
          simp only [hpre, List.append_assoc, List.singleton_append]
        · rw [hrun, hrest]
          simp [List.foldl_append]

end

/-! ## What is listed -/

section

variable {u} [Fintype P] [Fintype T] {root : T}

omit [DecidableEq P] [DecidableEq T] [Fintype T] in
theorem unseen_singleton [DecidableEq P] (p : P) : unseen [p] < Fintype.card P := by
  have h := unseen_cons_lt (List.not_mem_nil (a := p))
  simpa [unseen] using h

omit [DecidableEq T] [Fintype T] in
/-- The walk that fills the closure of a target. -/
theorem collect_walks (root : T) : ∃ new seen,
    (u.collect (Fintype.card P) (u.target root).pkg false (u.rootTests root) (u.rootBuilds root)
      ⟨[(u.target root).pkg], []⟩).order = new ∧
    Walks (u.linkNet root) false (u.follow root (u.target root).pkg) [(u.target root).pkg]
      new seen := by
  rw [collect_eq_walk List.mem_cons_self]
  obtain ⟨new, horder, hwalk⟩ := walk_walks (N := u.linkNet root) (l := false)
    (t := ⟨[(u.target root).pkg], []⟩)
    ((u.pkg (u.target root).pkg).deps.filter fun dep =>
      edgeLinks dep (u.rootTests root) (u.rootBuilds root)) (unseen_singleton (u.target root).pkg)
  rw [← follow_root] at horder hwalk ⊢
  exact ⟨new, _, by rw [horder, List.nil_append], hwalk⟩

omit [DecidableEq T] [Fintype T] in
theorem collectRuntime_walks (root : T) : ∃ new seen,
    (u.collectRuntime (Fintype.card P) (u.target root).pkg (u.rootTests root) (u.rootBuilds root)
      ⟨[(u.target root).pkg], []⟩).order = new ∧
    Walks (u.runtimeNet root) () (u.followRuntime root (u.target root).pkg) [(u.target root).pkg]
      new seen := by
  rw [collectRuntime_eq_walk List.mem_cons_self]
  obtain ⟨new, horder, hwalk⟩ := walk_walks (N := u.runtimeNet root) (l := ())
    (t := ⟨[(u.target root).pkg], []⟩)
    ((u.pkg (u.target root).pkg).deps.filter fun dep =>
      edgeLinks dep (u.rootTests root) (u.rootBuilds root)) (unseen_singleton (u.target root).pkg)
  rw [← followRuntime_root] at horder hwalk ⊢
  exact ⟨new, _, by rw [horder, List.nil_append], hwalk⟩

omit [DecidableEq P] [Fintype P] in
theorem collectSiblings_walks (root : T) : ∃ new seen,
    u.siblingLinkTargets root = (keys new).reverse ∧
    Walks u.siblingNet () (u.target root).deps [root] new seen := by
  unfold siblingLinkTargets
  rw [collectSiblings_eq_walk]
  obtain ⟨new, horder, hwalk⟩ := walk_walks (N := u.siblingNet) (l := ())
    (t := ⟨[root], []⟩) (u.target root).deps (unseen_singleton root)
  exact ⟨new, _, by rw [horder, List.nil_append], hwalk⟩

omit [DecidableEq P] [Fintype P] in
/-- The targets the runtime walk sees are those the root's target leads to. -/
theorem collectRuntimeSiblings_sees (root : T) : ∃ pre : List T,
    (u.collectRuntimeSiblings (Fintype.card T + 1) root ([], [])).2 =
      pre.foldl u.pushUniqueRuntimeLib [] ∧
    ∀ t, t ∈ pre ↔ Relation.TransGen u.Names root t := by
  obtain ⟨t, ht, pre, hpre, hrun⟩ := collectRuntimeSiblings_eq_walk (u := u)
    (s := ⟨[], []⟩)
  refine ⟨pre.reverse, by rw [hrun], fun a => ?_⟩
  obtain ⟨new, -, hwalk⟩ := walk_walks (N := u.targetNet) (l := ())
    (t := ⟨[], []⟩) (u.target root).deps
    (show unseen ([] : List T) < Fintype.card T + 1 by simp [unseen])
  have hnames : u.targetNet.Edge = u.Names := by
    funext a b
    exact propext edge_targetNet
  rw [← ht, hpre, List.append_nil] at hwalk
  rw [List.mem_reverse, ← hnames]
  constructor
  · intro ha
    rcases hwalk.mem_visited.1 ha with ha | ha
    · exact (hwalk.reaches a ha).transGen
    · exact absurd ha List.not_mem_nil
  · intro ha
    exact hwalk.complete (fun x hx => absurd hx List.not_mem_nil) a (.of_transGen ha)

/-- A library that is linked and shared. -/
def LinkedShared (u : Units P T) (lib : T) : Prop :=
  (u.target lib).noLink = false ∧ (u.target lib).libKind = .shared

omit [DecidableEq P] [Fintype P] [Fintype T] in
theorem pushUniqueRuntimeLib_spec {libs : List T} {lib : T} (h : libs.Nodup) :
    (u.pushUniqueRuntimeLib libs lib).Nodup ∧
      ∀ a, a ∈ u.pushUniqueRuntimeLib libs lib ↔ a ∈ libs ∨ a = lib ∧ u.LinkedShared lib := by
  unfold pushUniqueRuntimeLib LinkedShared
  split_ifs with hlink hkind hmem
  · simp [h, hlink]
  · simp [h, hkind]
  · refine ⟨h, fun a => ⟨.inl, fun ha => ha.elim id fun ha => ha.1 ▸ hmem⟩⟩
  · refine ⟨List.nodup_append.2 ⟨h, List.nodup_singleton lib, ?_⟩, ?_⟩
    · intro a ha b hb hab
      exact hmem (List.mem_singleton.1 hb ▸ hab ▸ ha)
    · simp only [List.mem_append, List.mem_singleton]
      simp_all

omit [DecidableEq P] [Fintype P] [Fintype T] in
theorem foldl_pushUniqueRuntimeLib {all libs : List T} (h : libs.Nodup) :
    (all.foldl u.pushUniqueRuntimeLib libs).Nodup ∧
      ∀ a, a ∈ all.foldl u.pushUniqueRuntimeLib libs ↔ a ∈ libs ∨ a ∈ all ∧ u.LinkedShared a := by
  induction all generalizing libs with
  | nil => exact ⟨h, by simp⟩
  | cons lib all ih =>
    obtain ⟨hnodup, hmem⟩ := pushUniqueRuntimeLib_spec h
    obtain ⟨hnodup', hmem'⟩ := ih hnodup
    refine ⟨hnodup', fun a => ?_⟩
    rw [List.foldl_cons, hmem', hmem, List.mem_cons]
    constructor
    · rintro ((ha | ⟨rfl, ha⟩) | ⟨ha, hl⟩)
      · exact .inl ha
      · exact .inr ⟨.inl rfl, ha⟩
      · exact .inr ⟨.inr ha, hl⟩
    · rintro (ha | ⟨rfl | ha, hl⟩)
      · exact .inl (.inl ha)
      · exact .inl (.inr ⟨rfl, hl⟩)
      · exact .inr ⟨ha, hl⟩

/-- The packages of the closure, where the root is no configure script. -/
theorem map_pkg_targetLinkClosure (hkind : (u.target root).kind ≠ .configureMetaprogram) :
    ∃ new seen, (u.targetLinkClosure root).map Entry.pkg =
        (u.target root).pkg :: (keys new).reverse ∧
      Walks (u.linkNet root) false (u.follow root (u.target root).pkg) [(u.target root).pkg]
        new seen := by
  obtain ⟨new, seen, horder, hwalk⟩ := collect_walks (u := u) root
  refine ⟨new, seen, ?_, hwalk⟩
  unfold targetLinkClosure
  simp only [if_neg hkind, horder, List.map_cons, List.map_map, keys, List.map_reverse]
  rfl

omit [Fintype P] [Fintype T] [DecidableEq T] in
theorem PkgAcyclic.root_not_from (h : u.PkgAcyclic) :
    ¬(u.linkNet root).From (u.follow root (u.target root).pkg) (u.target root).pkg :=
  fun hfrom => h.linkNet _ (Net.From.transGen (N := u.linkNet root) hfrom)

/-- No package of the closure stands behind one it follows an edge to. -/
theorem closure_before (hp : u.PkgAcyclic)
    (hkind : (u.target root).kind ≠ .configureMetaprogram) {pre post : List (Entry P T)}
    {entry : Entry P T} (hsplit : u.targetLinkClosure root = pre ++ entry :: post) {p : P}
    (hreach : Relation.TransGen (u.Follows root) entry.pkg p) : p ∈ post.map Entry.pkg := by
  obtain ⟨new, seen, hmap, hwalk⟩ := map_pkg_targetLinkClosure hkind
  rw [hsplit, List.map_append, List.map_cons] at hmap
  have hsorted := hwalk.sorted hp.linkNet [] fun x hx hvis => by
    rw [List.mem_singleton.1 hvis] at hx
    exact absurd hx hp.root_not_from
  cases hpre : pre.map Entry.pkg with
  | nil =>
    rw [hpre, List.nil_append, List.cons.injEq] at hmap
    rw [hmap.2, List.mem_reverse, hwalk.mem_keys hp.root_not_from]
    rw [hmap.1] at hreach
    exact Net.From.of_transGen (N := u.linkNet root) hreach
  | cons a pre' =>
    rw [hpre, List.cons_append, List.cons.injEq] at hmap
    exact hsorted.reverse hmap.2.symm hreach

/-- The closure has the packages that followed edges lead to. -/
theorem mem_closure (hp : u.PkgAcyclic) (hkind : (u.target root).kind ≠ .configureMetaprogram)
    {p : P} : p ∈ (u.targetLinkClosure root).map Entry.pkg ↔
      Relation.ReflTransGen (u.Follows root) (u.target root).pkg p := by
  obtain ⟨new, seen, hmap, hwalk⟩ := map_pkg_targetLinkClosure hkind
  rw [hmap, List.mem_cons, List.mem_reverse, hwalk.mem_keys hp.root_not_from,
    Relation.reflTransGen_iff_eq_or_transGen]
  refine or_congr_right ⟨fun h => ?_, fun h => ?_⟩
  · exact Net.From.transGen (N := u.linkNet root) h
  · exact Net.From.of_transGen (N := u.linkNet root) h

theorem nodup_closure (hp : u.PkgAcyclic) :
    ((u.targetLinkClosure root).map Entry.pkg).Nodup := by
  by_cases hkind : (u.target root).kind = .configureMetaprogram
  · unfold targetLinkClosure
    simp [hkind]
  · obtain ⟨new, seen, hmap, hwalk⟩ := map_pkg_targetLinkClosure hkind
    rw [hmap, List.nodup_cons, List.mem_reverse, hwalk.mem_keys hp.root_not_from]
    exact ⟨hp.root_not_from, List.nodup_reverse.2 hwalk.nodup⟩

omit [DecidableEq P] [Fintype P] in
theorem siblings_before (ht : u.TargetAcyclic) {pre post : List T} {t : T}
    (hsplit : u.siblingLinkTargets root = pre ++ t :: post) (hlinks : u.siblingCodeLinks t = true)
    {dep : T} (hdep : dep ∈ (u.target t).deps) : dep ∈ post := by
  obtain ⟨new, seen, hlist, hwalk⟩ := collectSiblings_walks (u := u) root
  have hsorted := hwalk.sorted ht.siblingNet [] fun x hx hvis => by
    rw [List.mem_singleton.1 hvis] at hx
    exact absurd (transGen_of_sibling hx) (ht root)
  exact hsorted.reverse (hlist.symm.trans hsplit) (.single (edge_siblingNet.2 ⟨hlinks, hdep⟩))

omit [DecidableEq P] [Fintype P] in
theorem mem_siblings (ht : u.TargetAcyclic) {t : T} : t ∈ u.siblingLinkTargets root ↔
    ∃ dep ∈ (u.target root).deps,
      Relation.ReflTransGen (fun a b => u.siblingCodeLinks a = true ∧ u.Names a b) dep t := by
  obtain ⟨new, seen, hlist, hwalk⟩ := collectSiblings_walks (u := u) root
  have hedge : u.siblingNet.Edge = fun a b => u.siblingCodeLinks a = true ∧ u.Names a b := by
    funext a b
    exact propext edge_siblingNet
  rw [hlist, List.mem_reverse, hwalk.mem_keys fun h => ht root (transGen_of_sibling h), Net.From,
    hedge]
  rfl

theorem runtime_libs (hp : u.PkgAcyclic) : (u.targetRuntimeLibs root).Nodup ∧
    ∀ lib, lib ∈ u.targetRuntimeLibs root ↔ u.LinkedShared lib ∧
      (Relation.TransGen u.Names root lib ∨
        ∃ p, Relation.TransGen (u.FollowsRuntime root) (u.target root).pkg p ∧
          lib ∈ (u.pkg p).libs) := by
  obtain ⟨new, seen, horder, hwalk⟩ := collectRuntime_walks (u := u) root
  obtain ⟨pre, hsiblings, hpre⟩ := collectRuntimeSiblings_sees (u := u) root
  have hroot : ¬(u.runtimeNet root).From (u.followRuntime root (u.target root).pkg)
      (u.target root).pkg :=
    fun h => hp.runtimeNet _ (Net.From.transGen (N := u.runtimeNet root) h)
  have hkeys : ∀ p, p ∈ keys new ↔
      Relation.TransGen (u.FollowsRuntime root) (u.target root).pkg p := fun p =>
    (hwalk.mem_keys hroot).trans
      ⟨Net.From.transGen (N := u.runtimeNet root), Net.From.of_transGen (N := u.runtimeNet root)⟩
  obtain ⟨hnodup, hmem⟩ := foldl_pushUniqueRuntimeLib (u := u) List.nodup_nil
  obtain ⟨hnodup', hmem'⟩ := foldl_pushUniqueRuntimeLib
    hnodup
  unfold targetRuntimeLibs
  simp only [horder, hsiblings]
  refine ⟨hnodup', fun lib => ?_⟩
  rw [hmem', hmem, List.mem_flatMap]
  constructor
  · rintro ((hlib | ⟨hlib, hshared⟩) | ⟨⟨found, hfound, hlib⟩, hshared⟩)
    · exact absurd hlib List.not_mem_nil
    · exact ⟨hshared, .inl ((hpre lib).1 hlib)⟩
    · exact ⟨hshared, .inr ⟨found.1, (hkeys _).1 (List.mem_map_of_mem hfound), hlib⟩⟩
  · rintro ⟨hshared, hlib | ⟨p, hreach, hlib⟩⟩
    · exact .inl (.inr ⟨(hpre lib).2 hlib, hshared⟩)
    · obtain ⟨found, hfound, rfl⟩ := List.mem_map.1 ((hkeys p).2 hreach)
      exact .inr ⟨⟨found, hfound, hlib⟩, hshared⟩

/-- What the closure of a target and its runtime libraries are to be. -/
structure LinksExactly (u : Units P T) (root : T) : Prop where
  /-- A configure script links its own package and nothing else. -/
  configure : (u.target root).kind = .configureMetaprogram →
    u.targetLinkClosure root = [⟨(u.target root).pkg, u.siblingLinkTargets root, false, true⟩]
  first : ∃ rest, u.targetLinkClosure root =
    ⟨(u.target root).pkg, u.siblingLinkTargets root, false, true⟩ :: rest
  once : ((u.targetLinkClosure root).map Entry.pkg).Nodup
  members : (u.target root).kind ≠ .configureMetaprogram → ∀ p,
    p ∈ (u.targetLinkClosure root).map Entry.pkg ↔
      Relation.ReflTransGen (u.Follows root) (u.target root).pkg p
  before : (u.target root).kind ≠ .configureMetaprogram → ∀ pre entry post,
    u.targetLinkClosure root = pre ++ entry :: post →
    ∀ p, Relation.TransGen (u.Follows root) entry.pkg p → p ∈ post.map Entry.pkg
  siblings_once : (u.siblingLinkTargets root).Nodup
  siblings_members : ∀ t, t ∈ u.siblingLinkTargets root ↔ ∃ dep ∈ (u.target root).deps,
    Relation.ReflTransGen (fun a b => u.siblingCodeLinks a = true ∧ u.Names a b) dep t
  siblings_before : ∀ pre t post, u.siblingLinkTargets root = pre ++ t :: post →
    u.siblingCodeLinks t = true → ∀ dep ∈ (u.target t).deps, dep ∈ post
  runtime_once : (u.targetRuntimeLibs root).Nodup
  runtime_members : ∀ lib, lib ∈ u.targetRuntimeLibs root ↔ u.LinkedShared lib ∧
    (Relation.TransGen u.Names root lib ∨
      ∃ p, Relation.TransGen (u.FollowsRuntime root) (u.target root).pkg p ∧
        lib ∈ (u.pkg p).libs)

/-- The closure of a target is exact and in the order of the linker's command line. -/
theorem link_closure_exact (hp : u.PkgAcyclic) (ht : u.TargetAcyclic) (root : T) :
    u.LinksExactly root where
  configure hkind := by
    unfold targetLinkClosure
    rw [if_pos hkind]
  first := by
    unfold targetLinkClosure
    split_ifs
    · exact ⟨[], rfl⟩
    · exact ⟨_, rfl⟩
  once := nodup_closure hp
  members hkind _ := mem_closure hp hkind
  before hkind _ _ _ hsplit _ hreach := closure_before hp hkind hsplit hreach
  siblings_once := by
    obtain ⟨new, seen, hlist, hwalk⟩ := collectSiblings_walks (u := u) root
    rw [hlist]
    exact List.nodup_reverse.2 hwalk.nodup
  siblings_members _ := mem_siblings ht
  siblings_before _ _ _ hsplit hlinks _ hdep := siblings_before ht hsplit hlinks hdep
  runtime_once := (runtime_libs hp).1
  runtime_members := (runtime_libs hp).2

omit [DecidableEq P] [DecidableEq T] [Fintype P] [Fintype T] in
theorem pkgAcyclic_of_rank (rank : P → ℕ)
    (h : ∀ p, ∀ dep ∈ (u.pkg p).deps, rank p < rank dep.unit) : u.PkgAcyclic := by
  have hlt : ∀ a b, Relation.TransGen (fun a b => ∃ dep ∈ (u.pkg a).deps, dep.unit = b) a b →
      rank a < rank b := by
    intro a b hab
    induction hab with
    | single hedge =>
      obtain ⟨dep, hdep, rfl⟩ := hedge
      exact h a dep hdep
    | tail _ hedge ih =>
      obtain ⟨dep, hdep, rfl⟩ := hedge
      exact ih.trans (h _ dep hdep)
  exact fun p hp => absurd (hlt p p hp) (lt_irrefl _)

omit [DecidableEq P] [DecidableEq T] [Fintype P] [Fintype T] in
theorem targetAcyclic_of_rank (rank : T → ℕ)
    (h : ∀ t, ∀ dep ∈ (u.target t).deps, rank t < rank dep) : u.TargetAcyclic := by
  have hlt : ∀ a b, Relation.TransGen u.Names a b → rank a < rank b := by
    intro a b hab
    induction hab with
    | single hedge => exact h a _ hedge
    | tail _ hedge ih => exact ih.trans (h _ _ hedge)
  exact fun t ht => absurd (hlt t t ht) (lt_irrefl _)

end

end Units

/-- A program with a static library of its own, over two packages that both depend on one with a
shared library; that one resolves the package behind it itself. -/
def sharedDiamond : Units (Fin 5) (Fin 5) where
  pkg
    | 0 => ⟨[⟨1, .package, false⟩, ⟨2, .package, true⟩], [1]⟩
    | 1 => ⟨[⟨3, .package, false⟩], [2]⟩
    | 2 => ⟨[⟨3, .package, false⟩], [3]⟩
    | 3 => ⟨[⟨4, .package, false⟩], [4]⟩
    | 4 => ⟨[], []⟩
  target
    | 0 => ⟨0, .exe, .none, false, [1]⟩
    | 1 => ⟨0, .lib, .static, false, []⟩
    | 2 => ⟨1, .lib, .static, false, []⟩
    | 3 => ⟨2, .lib, .static, false, []⟩
    | 4 => ⟨3, .lib, .shared, false, []⟩

/-- The shared package comes once, behind both packages that name it, and what is behind it does not
come; its library is needed when the program runs. -/
theorem link_closure_exact_diamond : sharedDiamond.LinksExactly 0 ∧
    (sharedDiamond.targetLinkClosure 0).map Entry.pkg = [0, 2, 1, 3] ∧
    sharedDiamond.siblingLinkTargets 0 = [1] ∧ sharedDiamond.targetRuntimeLibs 0 = [4] :=
  ⟨Units.link_closure_exact (Units.pkgAcyclic_of_rank Fin.val (by decide))
    (Units.targetAcyclic_of_rank Fin.val (by decide)) 0, by decide, by decide, by decide⟩

/-- A configure script that names a shared library and the static library that one links;
its package depends on another. -/
def scripted : Units (Fin 2) (Fin 3) where
  pkg
    | 0 => ⟨[⟨1, .package, false⟩], [1, 2]⟩
    | 1 => ⟨[], []⟩
  target
    | 0 => ⟨0, .configureMetaprogram, .none, false, [1, 2]⟩
    | 1 => ⟨0, .lib, .shared, false, [2]⟩
    | 2 => ⟨0, .lib, .static, false, []⟩

theorem scripted_pkgAcyclic : scripted.PkgAcyclic :=
  Units.pkgAcyclic_of_rank Fin.val (by decide)

theorem scripted_targetAcyclic : scripted.TargetAcyclic :=
  Units.targetAcyclic_of_rank Fin.val (by decide)

/-- The package of the script is linked alone, and the shared library stands behind the
library it names. -/
theorem link_closure_cut : scripted.PkgAcyclic ∧ scripted.TargetAcyclic ∧
    ¬(∀ p, p ∈ (scripted.targetLinkClosure 0).map Entry.pkg ↔
      Relation.ReflTransGen (scripted.Follows 0) (scripted.target 0).pkg p) ∧
    ¬(∀ pre t post, scripted.siblingLinkTargets 0 = pre ++ t :: post →
      ∀ dep ∈ (scripted.target t).deps, dep ∈ post) := by
  refine ⟨scripted_pkgAcyclic, scripted_targetAcyclic, fun h => ?_, fun h => ?_⟩
  · have hedge : scripted.Follows 0 0 1 := ⟨⟨1, .package, false⟩, by decide, rfl⟩
    have hmem := (h 1).2 (.single hedge)
    revert hmem
    decide
  · have hlist : scripted.siblingLinkTargets 0 = [2] ++ 1 :: [] := by decide
    exact absurd (h [2] 1 [] hlist 2 (by decide)) List.not_mem_nil

end Spn.Link
