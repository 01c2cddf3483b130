import Spn.Resolve.Registered

/-! # The search ends

A request names a package that is not being visited, and the names that can be visited
are those of the index, of the registry and of the manifests. So a depth of one more than
their number is never used up, whatever the search does.
-/
namespace Spn.Resolve

open Spn.Lib

/-- The names of the packages there are. -/
def Resolver.names (R : Resolver) (start : Registry) : Finset Str :=
  ((R.nodes start).map fun node => node.id.qualified).toFinset

/-- The names that can still be visited. -/
def Resolver.unvisited (R : Resolver) (start : Registry) (s : Search) : ℕ :=
  (R.names start \ s.visited).card

/-- The function answers, and leaves the names being visited as they were. -/
def Answer.Ends (s : Search) (a : Answer) : Prop := a.1 ≠ .stuck ∧ a.2.visited = s.visited

/-- With fewer than `n` names to visit, the function ends. -/
def Ends (R : Resolver) (start : Registry) (n : ℕ) (go : Search → ResolvedPkg → Req → Answer) :
    Prop :=
  ∀ (s : Search) (node : ResolvedPkg) (dep : Req), R.Known start s.registry →
    R.unvisited start s < n → Answer.Ends s (go s node dep)

section

variable {R : Resolver} {start : Registry} {n : ℕ} {holds : Holds}
  {go : Search → ResolvedPkg → Req → Answer}

theorem Resolver.mem_names (node : ResolvedPkg) (h : node ∈ R.nodes start) :
    node.id.qualified ∈ R.names start :=
  List.mem_toFinset.2 (List.mem_map_of_mem h)

theorem Resolver.unvisited_congr {s s' : Search} (h : s'.visited = s.visited) :
    R.unvisited start s' = R.unvisited start s := by
  unfold Resolver.unvisited
  rw [h]

theorem Answer.Ends.of_err {s s' : Search} (e : Err) (h : s'.visited = s.visited) :
    Answer.Ends s (.err e, s') := ⟨Verdict.noConfusion, h⟩

theorem Answer.Ends.of_ok {s s' : Search} (h : s'.visited = s.visited) :
    Answer.Ends s (.ok, s') := ⟨Verdict.noConfusion, h⟩

theorem Answer.Ends.from {s s' : Search} {a : Answer} (ha : Answer.Ends s' a)
    (h : s'.visited = s.visited) : Answer.Ends s a := ⟨ha.1, ha.2.trans h⟩

theorem resolveEach_ends (hgo : Ends R start n go) (hkeeps : Keeps (R.Known start) go)
    (node : ResolvedPkg) (reqs : List Req) {s : Search} (hknown : R.Known start s.registry)
    (hn : R.unvisited start s < n) : Answer.Ends s (resolveEach go node reqs s) := by
  induction reqs generalizing s with
  | nil => exact .of_ok rfl
  | cons dep rest ih =>
    have hstep := hgo s node dep hknown hn
    have hkept := hkeeps s node dep hknown
    rw [resolveEach]
    rcases hres : go s node dep with ⟨verdict, s'⟩
    rw [hres] at hstep hkept
    cases verdict with
    | ok => exact (ih hkept (by rwa [Resolver.unvisited_congr hstep.2])).from hstep.2
    | err e => exact hstep
    | stuck => exact hstep

/-- The dependencies of a node are resolved with its name among those visited. -/
theorem resolveDeps_ends (hgo : Ends R start n go) (hkeeps : Keeps (R.Known start) go)
    {s : Search} (node : ResolvedPkg) (hknown : R.Known start s.registry)
    (hname : node.id.qualified ∈ R.names start) (hfree : node.id.qualified ∉ s.visited)
    (hn : R.unvisited start s < n + 1) : Answer.Ends s (resolveDeps go s node) := by
  let inner : Search := { s with visited := insert node.id.qualified s.visited }
  have hless : R.unvisited start inner < R.unvisited start s := by
    refine Finset.card_lt_card (Finset.ssubset_iff_subset_ne.2 ⟨?_, ?_⟩)
    · exact Finset.sdiff_subset_sdiff (Finset.Subset.refl _) (Finset.subset_insert _ _)
    · intro heq
      have hmem : node.id.qualified ∈ R.names start \ s.visited :=
        Finset.mem_sdiff.2 ⟨hname, hfree⟩
      rw [← heq] at hmem
      exact (Finset.mem_sdiff.1 hmem).2 (Finset.mem_insert_self _ _)
  have hinner := resolveEach_ends hgo hkeeps node node.deps (s := inner) hknown (by omega)
  refine ⟨hinner.1, ?_⟩
  show (resolveEach go node node.deps inner).2.visited.erase node.id.qualified = s.visited
  rw [hinner.2]
  exact Finset.erase_insert hfree

theorem solveNode_ends (hgo : Ends R start n go) (hkeeps : Keeps (R.Known start) go)
    {s : Search} (name : Str) {node : ResolvedPkg} (hknown : R.Known start s.registry)
    (hname : node.id.qualified ∈ R.names start) (hfree : node.id.qualified ∉ s.visited)
    (hn : R.unvisited start s < n + 1) : Answer.Ends s (solveNode go s name node) := by
  let placed : ResolvedPkg := { node with priority := s.picks }
  let s₁ : Search := { s with picks := s.picks + 1, named := s.named.insert name placed }
  have hdeps : Answer.Ends s (resolveDeps go s₁ placed) :=
    (resolveDeps_ends hgo hkeeps (s := s₁) placed hknown hname hfree hn).from rfl
  have heq : solveNode go s name node = Answer.undone (resolveDeps go s₁ placed) s :=
    solveNode_eq go s name node
  rw [heq]
  rcases hres : resolveDeps go s₁ placed with ⟨verdict, s'⟩
  rw [hres] at hdeps
  cases verdict with
  | ok => exact hdeps
  | err e => exact .of_err e hdeps.2
  | stuck => exact hdeps

theorem tryCandidate_ends (hgo : Ends R start n go) (hkeeps : Keeps (R.Known start) go)
    {s : Search} (release : Release) (hknown : R.Known start s.registry)
    (hname : release.qualified ∈ R.names start) (hfree : release.qualified ∉ s.visited)
    (hn : R.unvisited start s < n + 1) : Answer.Ends s (tryCandidate R go s release) := by
  unfold tryCandidate
  split
  · exact .of_err _ rfl
  · exact (solveNode_ends hgo hkeeps (s := { s with budget := s.budget - 1 }) release.qualified
      hknown hname hfree hn).from rfl

theorem tryReleases_ends (hgo : Ends R start n go) (hkeeps : Keeps (R.Known start) go)
    (requester : ResolvedPkg) (request : Req) (range : Range) {name : Str} {releases : List Release}
    (hname : ∀ release ∈ releases, release.qualified = name ∧ name ∈ R.names start)
    (first : Option Err) {s : Search} (hknown : R.Known start s.registry) (hfree : name ∉ s.visited)
    (hn : R.unvisited start s < n + 1) :
    Answer.Ends s (tryReleases R go requester request range releases first s) := by
  induction releases generalizing first s with
  | nil => cases first <;> exact .of_err _ rfl
  | cons release rest ih =>
    have hrest := fun r hr => hname r (List.mem_cons_of_mem _ hr)
    obtain ⟨hqualified, hin⟩ := hname release List.mem_cons_self
    rw [tryReleases]
    split
    · exact ih hrest _ hknown hfree hn
    · have hstep := tryCandidate_ends (R := R) hgo hkeeps release hknown
        (hqualified ▸ hin) (hqualified ▸ hfree) hn
      have hkept := tryCandidate_keeps (R := R) hkeeps s release hknown
      rcases hres : tryCandidate R go s release with ⟨verdict, s'⟩
      rw [hres] at hstep hkept
      cases verdict with
      | ok => exact hstep
      | stuck => exact hstep
      | err e =>
        simp only
        split
        · exact hstep
        · refine (ih hrest _ hkept ?_ ?_).from hstep.2
          · rw [hstep.2]
            exact hfree
          · rwa [Resolver.unvisited_congr hstep.2]

theorem resolveIndexPackage_ends (hgo : Ends R start n go) (hkeeps : Keeps (R.Known start) go)
    {s : Search} (requester : ResolvedPkg) (request : Req) (range : Range)
    (hknown : R.Known start s.registry) (hn : R.unvisited start s < n + 1) :
    Answer.Ends s (resolveIndexPackage R holds go s requester request range) := by
  unfold resolveIndexPackage
  split
  · exact .of_err _ rfl
  rename_i hfree
  split
  · simp only
    split
    · exact .of_ok rfl
    · exact .of_err _ rfl
  split
  · exact .of_err _ rfl
  · exact .of_err _ rfl
  rename_i pkg hpkg
  have hname : ∀ release ∈ pkg.releases,
      release.qualified = request.qualified ∧ request.qualified ∈ R.names start := by
    intro release hrelease
    have hown := R.index.own _ pkg hpkg release hrelease
    refine ⟨hown, ?_⟩
    rw [← hown]
    refine Resolver.mem_names (R.releaseNode release) (List.mem_append_left _ ?_)
    exact List.mem_flatMap.2 ⟨_, (Table.mem_toList_iff _).2 hpkg, List.mem_map_of_mem hrelease⟩
  split
  · split
    · exact .of_err _ rfl
    · split
      · rename_i release hfind
        obtain ⟨hqualified, hin⟩ := hname release (List.mem_of_find?_eq_some hfind)
        exact tryCandidate_ends hgo hkeeps release hknown (hqualified ▸ hin) (hqualified ▸ hfree) hn
      · exact .of_err _ rfl
  · exact tryReleases_ends hgo hkeeps requester request range
      (fun release h => hname release (List.mem_reverse.1 h)) none hknown hfree hn

theorem solveLocal_ends (hgo : Ends R start n go) (hkeeps : Keeps (R.Known start) go) {s : Search}
    (requester : ResolvedPkg) (request : Req) {pkg : RegistryPkg}
    (hknown : R.Known start s.registry) (hpkg : R.Knows start pkg)
    (hfree : pkg.info.qualified ∉ s.visited) (hn : R.unvisited start s < n + 1) :
    Answer.Ends s (solveLocal R holds go s requester request pkg) := by
  have hname : (R.localNode pkg).id.qualified ∈ R.names start :=
    Resolver.mem_names _ (List.mem_append_right _ (List.mem_map_of_mem hpkg.mem_packages))
  let s₁ : Search := { s with
    met := s.met ++ [⟨requester.id, holds, request, R.localNode pkg⟩] }
  have hsolve : Answer.Ends s (solveNode go s₁ request.qualified (R.localNode pkg)) :=
    (solveNode_ends hgo hkeeps (s := s₁) request.qualified hknown hname hfree hn).from rfl
  unfold solveLocal
  simp only
  split
  · split
    · exact .of_err _ rfl
    · exact hsolve
  · exact hsolve

theorem resolveLocalPackage_ends (hgo : Ends R start n go) (hkeeps : Keeps (R.Known start) go)
    {s : Search} (requester : ResolvedPkg) (request : Req) (hknown : R.Known start s.registry)
    (hn : R.unvisited start s < n + 1) :
    Answer.Ends s (resolveLocalPackage R holds go s requester request) := by
  unfold resolveLocalPackage
  split
  · exact .of_err _ rfl
  rename_i hfree
  split
  · exact .of_ok rfl
  split
  · rename_i pkg _ hpkg
    have hown := s.registry.own _ _ hpkg
    exact solveLocal_ends hgo hkeeps requester request hknown (hknown _ _ hpkg) (hown ▸ hfree) hn
  · split
    · exact .of_err _ rfl
    · rename_i hnone _ _ pkg registry hload
      have hknown' := R.loads_known start _ _ _ _ _ hknown hload
      have hpkg : registry.pkgs[request.qualified]? = some pkg := by
        unfold loadFilePkg at hload
        rw [hnone] at hload
        simp only at hload
        split at hload
        · cases hload
        · cases hload
        · split at hload
          · cases hload
          · rename_i info _ hdeclared
            cases hload
            rw [← not_ne_iff.1 hdeclared]
            exact Table.getElem?_insert_self _ _ _
      have hown := registry.own _ _ hpkg
      exact (solveLocal_ends hgo hkeeps (s := { s with registry := registry }) requester request
        hknown' (hknown' _ _ hpkg) (hown ▸ hfree) hn).from rfl
  · exact .of_err _ rfl

/-- The circle ends, in whatever order the requests come. -/
theorem resolveDep_ends (R : Resolver) (start : Registry) (holds : Holds) (depth : ℕ) :
    Ends R start depth (resolveDep R holds depth) := by
  induction depth with
  | zero => exact fun s node dep _ h => absurd h (Nat.not_lt_zero _)
  | succ depth ih =>
    have hkeeps : Keeps (R.Known start) (resolveDep R holds depth) :=
      resolveDep_keeps (R.loads_known start) depth
    intro s node dep hknown hn
    unfold resolveDep
    cases R.classifyDep s.registry node dep with
    | pruned => exact .of_ok rfl
    | process => exact .of_ok rfl
    | isPrivate => exact .of_ok rfl
    | scope =>
      simp only
      cases dep.source with
      | index range => exact resolveIndexPackage_ends ih hkeeps _ _ _ hknown hn
      | root => exact resolveLocalPackage_ends ih hkeeps _ _ hknown hn
      | file path => exact resolveLocalPackage_ends ih hkeeps _ _ hknown hn

variable (holds)

theorem solveReqs_ends {depth : ℕ} (reqs : List Req) {s : Search}
    (hknown : R.Known start s.registry) (hdepth : R.unvisited start s < depth) :
    Answer.Ends s (solveReqs R holds depth reqs s) :=
  resolveEach_ends (resolveDep_ends R start holds depth)
    (resolveDep_keeps (R.loads_known start) depth) rootNode reqs hknown hdepth

variable (L : Listing) (it : ℕ) {depth : ℕ} (forced : Option Pin)

theorem attemptReqs_ends (list : List (Str × ResolvedPkg) → List (Str × ResolvedPkg)) (keep : Bool)
    (reqs : List Req) {s : Search} (hknown : R.Known start s.registry)
    (hdepth : R.unvisited start s < depth) :
    (attemptReqs R holds depth list keep reqs s).1 ≠ .stuck ∧
      (attemptReqs R holds depth list keep reqs s).2.1.visited = s.visited := by
  have hsolve := solveReqs_ends holds reqs hknown hdepth
  unfold attemptReqs
  rcases hres : solveReqs R holds depth reqs s with ⟨verdict, s'⟩
  rw [hres] at hsolve
  cases verdict with
  | ok =>
    refine ⟨Verdict.noConfusion, ?_⟩
    cases keep <;> exact hsolve.2
  | err e => exact ⟨Verdict.noConfusion, hsolve.2⟩
  | stuck => exact absurd rfl hsolve.1

theorem walkPins_ends (reqs : List Req) (pins kept : List Pin) (witness : Option Witness)
    {s : Search} (hknown : R.Known start s.registry) (hdepth : R.unvisited start s < depth) :
    (walkPins R L it forced depth reqs pins kept witness s).1 ≠ .stuck ∧
      (walkPins R L it forced depth reqs pins kept witness s).2.1.visited = s.visited := by
  induction pins generalizing kept witness s with
  | nil => exact ⟨Verdict.noConfusion, rfl⟩
  | cons pin rest ih =>
    have hstep := attemptReqs_ends ⟨forced, kept ++ [pin]⟩
      (L.named (.witness it s.picks)) false reqs hknown hdepth
    have hkept := attemptReqs_keeps ⟨forced, kept ++ [pin]⟩ (R.loads_known start) depth
      (L.named (.witness it s.picks)) false reqs s hknown
    rw [walkPins]
    rcases hres : attemptReqs R ⟨forced, kept ++ [pin]⟩ depth (L.named (.witness it s.picks)) false
      reqs s with ⟨verdict, s', found⟩
    rw [hres] at hstep hkept
    have hrest : ∀ kept witness,
        (walkPins R L it forced depth reqs rest kept witness s').1 ≠ .stuck ∧
          (walkPins R L it forced depth reqs rest kept witness s').2.1.visited = s.visited := by
      intro kept witness
      obtain ⟨hne, hv⟩ := ih kept witness hkept (by rwa [Resolver.unvisited_congr hstep.2])
      exact ⟨hne, hv.trans hstep.2⟩
    cases verdict with
    | ok => exact hrest _ _
    | stuck => exact absurd rfl hstep.1
    | err e =>
      simp only
      split
      · exact hstep
      · exact hrest _ _

theorem resolvePinned_ends (reqs : List Req) (pins kept : List Pin) {s : Search}
    (hknown : R.Known start s.registry) (hdepth : R.unvisited start s < depth) :
    (resolvePinned R L it forced depth reqs pins kept s).1 ≠ .stuck := by
  have hall := attemptReqs_ends ⟨forced, kept ++ pins⟩
    (L.named (.witness it s.picks)) true reqs hknown hdepth
  have hkept := attemptReqs_keeps ⟨forced, kept ++ pins⟩ (R.loads_known start) depth
    (L.named (.witness it s.picks)) true reqs s hknown
  unfold resolvePinned
  rcases hres : attemptReqs R ⟨forced, kept ++ pins⟩ depth (L.named (.witness it s.picks)) true
    reqs s with ⟨verdict, s', found⟩
  rw [hres] at hall hkept
  have hdepth' : R.unvisited start s' < depth := by rwa [Resolver.unvisited_congr hall.2]
  cases verdict with
  | ok => exact Verdict.noConfusion
  | stuck => exact absurd rfl hall.1
  | err e =>
    simp only
    split
    · exact Verdict.noConfusion
    have hwalk := walkPins_ends L it forced reqs pins [] none hkept
      hdepth'
    have hkept' := walkPins_keeps L it depth forced (R.loads_known start) reqs pins [] none s' hkept
    rcases hw : walkPins R L it forced depth reqs pins [] none s' with
      ⟨verdict, s₂, kept₂, witness⟩
    rw [hw] at hwalk hkept'
    cases verdict with
    | stuck => exact absurd rfl hwalk.1
    | err e => exact Verdict.noConfusion
    | ok =>
      cases witness with
      | some w => exact Verdict.noConfusion
      | none =>
        refine (solveReqs_ends _ reqs hkept' ?_).1
        rwa [Resolver.unvisited_congr hwalk.2]

/-- Between the scopes no name is being visited, so any depth beyond the names will do. -/
theorem resolveScope_ends {run : Run} (scope : Scope) (hvisited : run.visited = ∅)
    (hknown : R.Known start run.registry) (hdepth : (R.names start).card < depth) :
    (resolveScope R L depth run it scope).1 ≠ .stuck := by
  have hunvisited : ∀ scope' : Scope,
      R.unvisited start (({ run with budget := R.budget } : Run).search scope') < depth := by
    intro scope'
    show (R.names start \ run.visited).card < depth
    rwa [hvisited, Finset.sdiff_empty]
  unfold resolveScope
  simp only
  split
  · exact (solveReqs_ends _ _ hknown (hunvisited _)).1
  · exact resolvePinned_ends L it _ _ _ _ hknown (hunvisited _)

end

end Spn.Resolve
