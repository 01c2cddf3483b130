import Spn.Resolve.Identity
import Spn.Resolve.Registered

/-! # What a failure leaves behind

A failure of the search has undone its names and its boundaries, and no function of the
search changes the names that are being resolved. To say the latter of every call inside
a run, the search is run once more with the stack of `resolve_deps` at hand, and every
call compares the stack with `visited`.
-/
namespace Spn.Resolve

open Spn.Lib

/-- Nothing is lost, the open names are those of before, and a failure has undone its work. -/
structure Answer.Undoes (s : Search) (a : Answer) : Prop where
  grows : a.1 ≠ .stuck → s.Extends a.2
  visited : a.1 ≠ .stuck → a.2.visited = s.visited
  undone : ∀ e, a.1 = .err e → a.2.named = s.named ∧ a.2.boundaries = s.boundaries

namespace Answer.Undoes

variable {s s' : Search} {a : Answer}

theorem of_stuck (h : a.1 = .stuck) : Undoes s a where
  grows hne := absurd h hne
  visited hne := absurd h hne
  undone _ he := by rw [h] at he; cases he

theorem refl (v : Verdict) : Undoes s (v, s) where
  grows _ := .refl s
  visited _ := rfl
  undone _ _ := ⟨rfl, rfl⟩

theorem of_ok (he : s.Extends s') (hv : s'.visited = s.visited) : Undoes s (.ok, s') where
  grows _ := he
  visited _ := hv
  undone _ h := by cases h

/-- An answer from a state that kept names and boundaries. -/
theorem trans (he : s.Extends s') (hn : s'.named = s.named) (hb : s'.boundaries = s.boundaries)
    (hv : s'.visited = s.visited) (h : Undoes s' a) : Undoes s a where
  grows hne := he.trans (h.grows hne)
  visited hne := (h.visited hne).trans hv
  undone e hae := ⟨(h.undone e hae).1.trans hn, (h.undone e hae).2.trans hb⟩

end Answer.Undoes

/-- Every call undoes what it fails at. -/
def Undoing (go : Search → ResolvedPkg → Req → Answer) : Prop :=
  ∀ s node dep, Answer.Undoes s (go s node dep)

/-- Two functions that agree on a node that is resolved above the names `V`. -/
def AgreeAbove (V : Finset Str) (go go' : Search → ResolvedPkg → Req → Answer) : Prop :=
  ∀ s node dep, s.visited = insert node.id.qualified V → go' s node dep = go s node dep

/-- What is shown of a function of the search in the names `V`: it undoes what it fails at,
and asks the function it goes on with in the names `V` and the node's own. -/
structure Careful (s : Search) (a a' : Answer) : Prop where
  undoes : Answer.Undoes s a
  agree : a' = a

section

variable {R : Resolver} {holds : Holds} {go go' : Search → ResolvedPkg → Req → Answer}

/-- The loop over the requests of a node; of a failure it leaves what was done before. -/
theorem resolveEach_careful (hgo : Undoing go) {node : ResolvedPkg} {V : Finset Str}
    (hagree : ∀ s dep, s.visited = V → go' s node dep = go s node dep) (reqs : List Req)
    {s : Search} (hs : s.visited = V) :
    ((resolveEach go node reqs s).1 ≠ .stuck →
      s.Extends (resolveEach go node reqs s).2 ∧ (resolveEach go node reqs s).2.visited = V) ∧
    resolveEach go' node reqs s = resolveEach go node reqs s := by
  induction reqs generalizing s with
  | nil => exact ⟨fun _ => ⟨.refl s, hs⟩, rfl⟩
  | cons dep rest ih =>
    have hstep := hgo s node dep
    simp only [resolveEach, hagree s dep hs]
    rcases hres : go s node dep with ⟨verdict, s₁⟩
    rw [hres] at hstep
    cases verdict with
    | stuck => exact ⟨fun h => absurd rfl h, rfl⟩
    | err e =>
      have hne : Verdict.err e ≠ .stuck := Verdict.noConfusion
      exact ⟨fun _ => ⟨hstep.grows hne, (hstep.visited hne).trans hs⟩, rfl⟩
    | ok =>
      have hne : Verdict.ok ≠ .stuck := Verdict.noConfusion
      obtain ⟨hrest, hsame⟩ := ih ((hstep.visited hne).trans hs)
      exact ⟨fun h => ⟨(hstep.grows hne).trans (hrest h).1, (hrest h).2⟩, hsame⟩

/-- `solve_node`, of a name that is free. -/
theorem solveNode_careful (hgo : Undoing go) {s : Search} (hagree : AgreeAbove s.visited go go')
    {name : Str} (node : ResolvedPkg) (hfree : s.named[name]? = none)
    (hvis : node.id.qualified ∉ s.visited) :
    Careful s (solveNode go s name node) (solveNode go' s name node) := by
  let picked : ResolvedPkg := { node with priority := s.picks }
  let opened : Search := { s with picks := s.picks + 1, named := s.named.insert name picked }
  have he₁ : s.Extends { opened with visited := insert node.id.qualified s.visited } := by
    have h := s.extends_entered hfree picked
    exact ⟨h.named, h.boundaries, h.registry, h.met, h.picks⟩
  obtain ⟨hgrows, hsame⟩ := resolveEach_careful hgo
    (V := insert node.id.qualified s.visited) (fun t dep ht => hagree t picked dep ht) picked.deps
    (s := { opened with visited := insert node.id.qualified s.visited }) rfl
  have hdeps : resolveDeps go' opened picked = resolveDeps go opened picked := by
    unfold resolveDeps
    rw [show resolveEach go' picked picked.deps
      { opened with visited := insert picked.id.qualified opened.visited } = _ from hsame]
  have hback : (resolveDeps go opened picked).1 ≠ .stuck →
      s.Extends (resolveDeps go opened picked).2 ∧
        (resolveDeps go opened picked).2.visited = s.visited := by
    intro hne
    obtain ⟨he₂, hv₂⟩ := hgrows hne
    have he := he₁.trans he₂
    refine ⟨⟨he.named, he.boundaries, he.registry, he.met, he.picks⟩, ?_⟩
    show Finset.erase _ node.id.qualified = s.visited
    rw [hv₂]
    exact Finset.erase_insert hvis
  have hunfold : ∀ f : Search → ResolvedPkg → Req → Answer, solveNode f s name node =
      Answer.undone (resolveDeps f opened picked) s := fun f => solveNode_eq f s name node
  rw [hunfold go, hunfold go', hdeps]
  rcases hres : resolveDeps go opened picked with ⟨verdict, s₂⟩
  rw [hres] at hback
  cases verdict with
  | stuck => exact ⟨.of_stuck rfl, rfl⟩
  | ok =>
    obtain ⟨he, hv⟩ := hback Verdict.noConfusion
    exact ⟨.of_ok he hv, rfl⟩
  | err e =>
    obtain ⟨he, hv⟩ := hback Verdict.noConfusion
    obtain ⟨hn, hb⟩ := restore_of_extends he
    have hext : s.Extends (s₂.restore s) :=
      ⟨fun k n h => hn ▸ h, by rw [hb], he.registry, he.met, he.picks⟩
    exact ⟨⟨fun _ => hext, fun _ => hv, fun _ _ => ⟨hn, hb⟩⟩, rfl⟩

theorem tryCandidate_careful (hgo : Undoing go) {s : Search}
    (hagree : AgreeAbove s.visited go go') {release : Release}
    (hfree : s.named[release.qualified]? = none) (hvis : release.qualified ∉ s.visited) :
    Careful s (tryCandidate R go s release) (tryCandidate R go' s release) := by
  unfold tryCandidate
  split
  case isTrue =>
    have he : s.Extends { s with fatal := true } :=
      ⟨fun _ _ h => h, List.prefix_refl _, .refl _, List.prefix_refl _, le_refl _⟩
    exact ⟨.trans he rfl rfl rfl (.refl _), rfl⟩
  case isFalse =>
    have he : s.Extends { s with budget := s.budget - 1 } :=
      ⟨fun _ _ h => h, List.prefix_refl _, .refl _, List.prefix_refl _, le_refl _⟩
    obtain ⟨hundoes, hsame⟩ := solveNode_careful (s := { s with budget := s.budget - 1 })
      hgo hagree (R.releaseNode release) hfree hvis
    exact ⟨.trans he rfl rfl rfl hundoes, hsame⟩

/-- The candidates are tried from the state before the first of them. -/
theorem tryReleases_careful (hgo : Undoing go) {requester : ResolvedPkg} {request : Req}
    {range : Range} {releases : List Release} (hown : ∀ r ∈ releases, r.qualified = request.qualified)
    {first : Option Err} {s : Search} (hagree : AgreeAbove s.visited go go')
    (hfree : s.named[request.qualified]? = none) (hvis : request.qualified ∉ s.visited) :
    Careful s (tryReleases R go requester request range releases first s)
      (tryReleases R go' requester request range releases first s) := by
  induction releases generalizing first s with
  | nil =>
    unfold tryReleases
    cases first with
    | none => exact ⟨.refl _, rfl⟩
    | some e => exact ⟨.refl _, rfl⟩
  | cons release rest ih =>
    have hrest : ∀ r ∈ rest, r.qualified = request.qualified :=
      fun r hr => hown r (List.mem_cons_of_mem _ hr)
    have hname : release.qualified = request.qualified := hown release List.mem_cons_self
    rw [tryReleases, tryReleases]
    split
    case isTrue => exact ih hrest hagree hfree hvis
    case isFalse =>
      obtain ⟨hundoes, hsame⟩ := tryCandidate_careful (R := R) hgo hagree
        (hname ▸ hfree) (hname ▸ hvis)
      rw [hsame]
      rcases hres : tryCandidate R go s release with ⟨verdict, s₁⟩
      rw [hres] at hundoes
      cases verdict with
      | ok => exact ⟨hundoes, rfl⟩
      | stuck => exact ⟨hundoes, rfl⟩
      | err e =>
        simp only
        split
        case isTrue => exact ⟨hundoes, rfl⟩
        case isFalse =>
          have hne : Verdict.err e ≠ .stuck := Verdict.noConfusion
          obtain ⟨hn, hb⟩ := hundoes.undone e rfl
          have hv := hundoes.visited hne
          obtain ⟨hundoes', hsame'⟩ := ih hrest (s := s₁) (hv ▸ hagree)
            (hn ▸ hfree) (hv ▸ hvis)
          exact ⟨.trans (hundoes.grows hne) hn hb hv hundoes', hsame'⟩

theorem resolveIndexPackage_careful (hgo : Undoing go) {s : Search}
    (hagree : AgreeAbove s.visited go go') (requester : ResolvedPkg) (request : Req)
    (range : Range) :
    Careful s (resolveIndexPackage R holds go s requester request range)
      (resolveIndexPackage R holds go' s requester request range) := by
  unfold resolveIndexPackage
  split
  case isTrue => exact ⟨.refl _, rfl⟩
  case isFalse hvis =>
    cases hheld : s.named[request.qualified]? with
    | some existing =>
      have he := s.extends_note ⟨requester.id, holds, request, existing⟩
      simp only
      split
      case isTrue => exact ⟨.of_ok he rfl, rfl⟩
      case isFalse => exact ⟨.trans he rfl rfl rfl (.refl _), rfl⟩
    | none =>
      simp only
      cases hpkg : R.index.packages[request.qualified]? with
      | none => exact ⟨.refl _, rfl⟩
      | some got =>
        cases got with
        | error diag => exact ⟨.refl _, rfl⟩
        | ok pkg =>
          have hown : ∀ r ∈ pkg.releases, r.qualified = request.qualified := R.index.own _ _ hpkg
          simp only
          cases holds.find request.qualified with
          | none =>
            exact tryReleases_careful hgo (fun r hr => hown r (List.mem_reverse.1 hr)) hagree
              hheld hvis
          | some found =>
            simp only
            split
            case isTrue => exact ⟨.refl _, rfl⟩
            case isFalse =>
              cases hrelease : pkg.releases.find? fun release => release.version = found.1 with
              | none => exact ⟨.refl _, rfl⟩
              | some release =>
                have hname := hown release (List.mem_of_find?_eq_some hrelease)
                exact tryCandidate_careful hgo hagree (hname ▸ hheld) (hname ▸ hvis)

theorem solveLocal_careful (hgo : Undoing go) {s : Search} (hagree : AgreeAbove s.visited go go')
    (requester : ResolvedPkg) {request : Req} (pkg : RegistryPkg)
    (hown : pkg.info.qualified = request.qualified)
    (hfree : s.named[request.qualified]? = none) (hvis : request.qualified ∉ s.visited) :
    Careful s (solveLocal R holds go s requester request pkg)
      (solveLocal R holds go' s requester request pkg) := by
  have he := s.extends_note ⟨requester.id, holds, request, R.localNode pkg⟩
  obtain ⟨hundoes, hsame⟩ := solveNode_careful
    (s := { s with met := s.met ++ [⟨requester.id, holds, request, R.localNode pkg⟩] })
    hgo hagree (R.localNode pkg) hfree
    (show pkg.info.qualified ∉ s.visited from hown ▸ hvis)
  have hundoes' := Answer.Undoes.trans he rfl rfl rfl hundoes
  unfold solveLocal
  simp only
  cases holds.find request.qualified with
  | none => exact ⟨hundoes', hsame⟩
  | some found =>
    simp only
    split
    case isTrue => exact ⟨.trans he rfl rfl rfl (.refl _), rfl⟩
    case isFalse => exact ⟨hundoes', hsame⟩

theorem resolveLocalPackage_careful (hgo : Undoing go) {s : Search}
    (hagree : AgreeAbove s.visited go go') (requester : ResolvedPkg) (request : Req) :
    Careful s (resolveLocalPackage R holds go s requester request)
      (resolveLocalPackage R holds go' s requester request) := by
  unfold resolveLocalPackage
  split
  case isTrue => exact ⟨.refl _, rfl⟩
  case isFalse hvis =>
    cases hheld : s.named[request.qualified]? with
    | some existing => exact ⟨.of_ok (s.extends_note _) rfl, rfl⟩
    | none =>
      simp only
      cases hpkg : s.registry.pkgs[request.qualified]? with
      | some pkg =>
        exact solveLocal_careful hgo hagree requester pkg (s.registry.own _ _ hpkg) hheld hvis
      | none =>
        cases hsource : request.source with
        | root => exact ⟨.refl _, rfl⟩
        | index range => exact ⟨.refl _, rfl⟩
        | file path =>
          simp only [loadFilePkg, hpkg]
          cases R.manifests[path]? with
          | none => exact ⟨.refl _, rfl⟩
          | some manifest =>
            cases manifest with
            | none => exact ⟨.refl _, rfl⟩
            | some info =>
              by_cases hname : info.qualified = request.qualified
              · simp only [ne_eq, hname, not_true_eq_false, if_false]
                have he : s.Extends { s with registry := s.registry.insert ⟨.file, info, path⟩ } :=
                  ⟨fun _ _ h => h, List.prefix_refl _, .insert (hname ▸ hpkg),
                    List.prefix_refl _, le_refl _⟩
                obtain ⟨hundoes, hsame⟩ := solveLocal_careful (R := R)
                  (s := { s with registry := s.registry.insert ⟨.file, info, path⟩ })
                  hgo hagree requester ⟨.file, info, path⟩ hname hheld hvis
                exact ⟨.trans he rfl rfl rfl hundoes, hsame⟩
              · simp only [ne_eq, hname, not_false_eq_true, if_true]
                exact ⟨.refl _, rfl⟩

end

/-- `resolve_dep`, with the function the circle goes on with. -/
def resolveStep (R : Resolver) (holds : Holds) (go : Search → ResolvedPkg → Req → Answer)
    (s : Search) (node : ResolvedPkg) (dep : Req) : Answer :=
  match R.classifyDep s.registry node dep with
  | .pruned => (.ok, s)
  | .process => (.ok, { s with boundaries := s.boundaries ++ [⟨node.id, .process, dep⟩] })
  | .isPrivate => (.ok, { s with boundaries := s.boundaries ++ [⟨node.id, .isPrivate, dep⟩] })
  | .scope =>
    match dep.source with
    | .index range => resolveIndexPackage R holds go s node dep range
    | .root | .file _ => resolveLocalPackage R holds go s node dep

theorem resolveDep_succ (R : Resolver) (holds : Holds) (depth : ℕ) (s : Search)
    (node : ResolvedPkg) (dep : Req) :
    resolveDep R holds (depth + 1) s node dep =
      resolveStep R holds (resolveDep R holds depth) s node dep := rfl

/-- A call that compares the stack of `resolve_deps` with `visited` when it starts and when
it ends, and gives up where they differ. -/
def watch (stack : List Str) (go : Search → ResolvedPkg → Req → Answer) (s : Search)
    (node : ResolvedPkg) (dep : Req) : Answer :=
  if s.visited = stack.toFinset then
    let answer := go s node dep
    if answer.2.visited = stack.toFinset then answer else (.stuck, answer.2)
  else (.stuck, s)

/-- `resolve_dep` with the stack at hand: its calls are made by the `resolve_deps` of a node,
whose name is on top. -/
def watchedDep (R : Resolver) (holds : Holds) : ℕ → List Str → Search → ResolvedPkg → Req → Answer
  | 0, _, s, _, _ => (.stuck, s)
  | depth + 1, stack, s, node, dep =>
    watch stack (resolveStep R holds fun s node dep =>
      watchedDep R holds depth (node.id.qualified :: stack) s node dep) s node dep

section

variable {R : Resolver} {holds : Holds}

theorem resolveStep_careful {go go' : Search → ResolvedPkg → Req → Answer} (hgo : Undoing go)
    {s : Search} (hagree : AgreeAbove s.visited go go') (node : ResolvedPkg) (dep : Req) :
    Careful s (resolveStep R holds go s node dep) (resolveStep R holds go' s node dep) := by
  have post : ∀ b : Boundary,
      Answer.Undoes s (.ok, { s with boundaries := s.boundaries ++ [b] }) := fun b =>
    .of_ok ⟨fun _ _ h => h, List.prefix_append _ _, .refl _, List.prefix_refl _, le_refl _⟩ rfl
  unfold resolveStep
  cases R.classifyDep s.registry node dep with
  | pruned => exact ⟨.refl _, rfl⟩
  | process => exact ⟨post _, rfl⟩
  | isPrivate => exact ⟨post _, rfl⟩
  | scope =>
    cases dep.source with
    | index range => exact resolveIndexPackage_careful hgo hagree node dep range
    | root => exact resolveLocalPackage_careful hgo hagree node dep
    | file path => exact resolveLocalPackage_careful hgo hagree node dep

/-- Every call undoes what it fails at, to any depth. -/
theorem resolveDep_undoing (depth : ℕ) : Undoing (resolveDep R holds depth) := by
  induction depth with
  | zero => exact fun s node dep => .of_stuck rfl
  | succ depth ih =>
    exact fun s node dep => (resolveStep_careful ih (fun _ _ _ _ => rfl) node dep).undoes

/-- The comparisons with the stack never tell: the watched search is the search. -/
theorem watchedDep_eq {depth : ℕ} {stack : List Str} {s : Search} (hs : s.visited = stack.toFinset)
    (node : ResolvedPkg) (dep : Req) :
    watchedDep R holds depth stack s node dep = resolveDep R holds depth s node dep := by
  induction depth generalizing stack s node dep with
  | zero => rfl
  | succ depth ih =>
    have hagree : AgreeAbove s.visited (resolveDep R holds depth) fun s node dep =>
        watchedDep R holds depth (node.id.qualified :: stack) s node dep := by
      intro t asker request ht
      refine ih ?_ asker request
      rw [ht, hs, List.toFinset_cons]
    obtain ⟨hundoes, hsame⟩ := resolveStep_careful (resolveDep_undoing depth)
      hagree node dep
    rw [resolveDep_succ, watchedDep, watch, if_pos hs, hsame]
    rcases hres : resolveStep R holds (resolveDep R holds depth) s node dep with ⟨verdict, s₁⟩
    rw [hres] at hundoes
    simp only
    split
    case isTrue => rfl
    case isFalse hne =>
      cases verdict with
      | stuck => rfl
      | ok => exact absurd ((hundoes.visited Verdict.noConfusion).trans hs) hne
      | err e => exact absurd ((hundoes.visited Verdict.noConfusion).trans hs) hne

/-- What a failed attempt leaves: the names, the boundaries and the open names of before.
The local packages are those of before and some that manifests on the disk declare. -/
structure Search.RolledBack (R : Resolver) (s s' : Search) : Prop where
  named : s'.named = s.named
  boundaries : s'.boundaries = s.boundaries
  visited : s'.visited = s.visited
  registry : s.registry.Extends s'.registry
  gained : R.Known s.registry s'.registry

theorem Answer.Undoes.rolledBack {s : Search} {a : Answer} (h : Undoes s a) {e : Err}
    (he : a.1 = .err e) (hknown : R.Known s.registry a.2.registry) : s.RolledBack R a.2 := by
  have hne : a.1 ≠ .stuck := by rw [he]; exact Verdict.noConfusion
  exact ⟨(h.undone e he).1, (h.undone e he).2, h.visited hne, (h.grows hne).registry, hknown⟩

/-- An attempt that fails, or that is not kept, is rolled back. -/
theorem attemptReqs_rolledBack {depth : ℕ}
    {list : List (Str × ResolvedPkg) → List (Str × ResolvedPkg)} {keep : Bool} {reqs : List Req}
    {s : Search}
    (h : (∃ e, (attemptReqs R holds depth list keep reqs s).1 = .err e) ∨
      keep = false ∧ (attemptReqs R holds depth list keep reqs s).1 = .ok) :
    s.RolledBack R (attemptReqs R holds depth list keep reqs s).2.1 := by
  have hknown := attemptReqs_keeps holds (R.loads_known s.registry) depth list keep reqs s
    (R.known_start s.registry)
  obtain ⟨hgrows, -⟩ := resolveEach_careful
    (resolveDep_undoing (R := R) depth) (fun _ _ _ => rfl) reqs (s := s) rfl
  unfold attemptReqs solveReqs at h hknown ⊢
  rcases hres : resolveEach (resolveDep R holds depth) rootNode reqs s with ⟨verdict, s₁⟩
  rw [hres] at hgrows h hknown
  cases verdict with
  | stuck => simp at h
  | err e =>
    obtain ⟨he, hv⟩ := hgrows Verdict.noConfusion
    obtain ⟨hn, hb⟩ := restore_of_extends he
    exact ⟨hn, hb, hv, he.registry, hknown⟩
  | ok =>
    obtain ⟨he, hv⟩ := hgrows Verdict.noConfusion
    obtain ⟨hn, hb⟩ := restore_of_extends he
    obtain rfl : keep = false := by simpa using h
    exact ⟨hn, hb, hv, he.registry, hknown⟩

end

/-- A failed attempt leaves names, boundaries and open names as they were and the registry
with packages of the disk at most besides its own, and no call of a run finds anything but
the stack of `resolve_deps` in `visited`. -/
theorem failed_attempt_rolls_back (R : Resolver) (holds : Holds) (depth : ℕ) :
    (∀ (s : Search) (name : Str) (node : ResolvedPkg), s.named[name]? = none →
      node.id.qualified ∉ s.visited →
      ∀ e, (solveNode (resolveDep R holds depth) s name node).1 = .err e →
        s.RolledBack R (solveNode (resolveDep R holds depth) s name node).2) ∧
    (∀ (list : List (Str × ResolvedPkg) → List (Str × ResolvedPkg)) (keep : Bool)
      (reqs : List Req) (s : Search),
      (∃ e, (attemptReqs R holds depth list keep reqs s).1 = .err e) ∨
        keep = false ∧ (attemptReqs R holds depth list keep reqs s).1 = .ok →
      s.RolledBack R (attemptReqs R holds depth list keep reqs s).2.1) ∧
    (∀ (stack : List Str) (s : Search), s.visited = stack.toFinset → ∀ node dep,
      watchedDep R holds depth stack s node dep = resolveDep R holds depth s node dep) ∧
    ∀ (reqs : List Req) (s : Search), s.visited = ∅ →
      resolveEach (watchedDep R holds depth []) rootNode reqs s =
        solveReqs R holds depth reqs s := by
  refine ⟨?_, fun _ _ _ _ h => attemptReqs_rolledBack h, fun _ _ hs => watchedDep_eq hs, ?_⟩
  · intro s name node hfree hvis e he
    exact (solveNode_careful (resolveDep_undoing depth) (fun _ _ _ _ => rfl) node hfree
      hvis).undoes.rolledBack he (solveNode_keeps (resolveDep_keeps
        (R.loads_known s.registry) depth) s name node (R.known_start s.registry))
  · intro reqs s hs
    exact (resolveEach_careful
      (resolveDep_undoing depth) (fun t dep ht => watchedDep_eq (by simp [ht, hs]) rootNode dep)
      reqs (s := s) rfl).2

/-- The package x of the project, which depends on a package that is nowhere. -/
def missingDep : Resolver :=
  plainResolver Index.empty [manifest "x" [.ofIndex "y" anyVersion .package] []]

/-- A search that has not begun. -/
def blankSearch : Search := ⟨∅, [], ∅, 0, 10, false, Registry.empty, []⟩

/-- The x of the project, as its manifest says. -/
def missingNode : ResolvedPkg :=
  missingDep.localNode ⟨.file, manifest "x" [.ofIndex "y" anyVersion .package] [], inProject "x"⟩

theorem failed_attempt_rolls_back_missing :
    blankSearch.RolledBack missingDep
      (solveNode (resolveDep missingDep ⟨none, []⟩ 5) blankSearch (str "x") missingNode).2 ∧
    blankSearch.RolledBack missingDep (attemptReqs missingDep ⟨none, []⟩ 5 id false
      [.ofFile "x" .package] blankSearch).2.1 ∧
    watchedDep missingDep ⟨none, []⟩ 5 [str "x"] { blankSearch with visited := {str "x"} }
        missingNode (.ofFile "x" .package) =
      resolveDep missingDep ⟨none, []⟩ 5 { blankSearch with visited := {str "x"} }
        missingNode (.ofFile "x" .package) ∧
    resolveEach (watchedDep missingDep ⟨none, []⟩ 5 []) rootNode [.ofFile "x" .package] blankSearch =
      solveReqs missingDep ⟨none, []⟩ 5 [.ofFile "x" .package] blankSearch := by
  obtain ⟨hsolve, hattempt, hdep, hreqs⟩ := failed_attempt_rolls_back missingDep ⟨none, []⟩ 5
  refine ⟨hsolve _ _ _ (by decide +kernel) (by decide +kernel)
    (.pkgUnknown (str "y") (some anyVersion)) (by decide +kernel), hattempt _ _ _ _ (.inl
    ⟨.pkgUnknown (str "y") (some anyVersion), by decide +kernel⟩), hdep _ _ rfl _ _, hreqs _ _ rfl⟩

/-- The attempt fails, and the registry has the package it read on the way. -/
theorem failed_attempt_registers :
    (attemptReqs missingDep ⟨none, []⟩ 5 id false [.ofFile "x" .package] blankSearch).1 =
      .err (.pkgUnknown (str "y") (some anyVersion)) ∧
    blankSearch.registry.pkgs[str "x"]?.isSome = false ∧
    (attemptReqs missingDep ⟨none, []⟩ 5 id false [.ofFile "x" .package]
      blankSearch).2.1.registry.pkgs[str "x"]?.isSome = true := by
  decide +kernel

end Spn.Resolve
