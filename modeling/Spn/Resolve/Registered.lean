import Spn.Resolve.Commit
import Spn.Resolve.Rounds

/-! # What the registry learns

The search changes the registry in one place, where a manifest is read from the disk.
What reading a manifest keeps, the whole resolver keeps, whatever it answers.
-/
namespace Spn.Resolve

open Spn.Lib

/-- Reading a manifest keeps it. -/
def Resolver.Loads (R : Resolver) (P : Registry → Prop) : Prop :=
  ∀ (registry registry' : Registry) (qualified : Str) (path : Path) (pkg : RegistryPkg),
    P registry → loadFilePkg R registry qualified path = .ok (pkg, registry') → P registry'

/-- The function keeps it. -/
def Keeps (P : Registry → Prop) (go : Search → ResolvedPkg → Req → Answer) : Prop :=
  ∀ (s : Search) (node : ResolvedPkg) (dep : Req), P s.registry → P (go s node dep).2.registry

section

variable {R : Resolver} {P : Registry → Prop} {holds : Holds}
  {go : Search → ResolvedPkg → Req → Answer}

theorem resolveEach_keeps (hgo : Keeps P go) (node : ResolvedPkg) (reqs : List Req) (s : Search)
    (h : P s.registry) : P (resolveEach go node reqs s).2.registry := by
  induction reqs generalizing s with
  | nil => exact h
  | cons dep rest ih =>
    have hstep := hgo s node dep h
    rw [resolveEach]
    rcases hres : go s node dep with ⟨verdict, s'⟩
    rw [hres] at hstep
    cases verdict with
    | ok => exact ih s' hstep
    | err e => exact hstep
    | stuck => exact hstep

theorem solveNode_keeps (hgo : Keeps P go) (s : Search) (name : Str) (node : ResolvedPkg)
    (h : P s.registry) : P (solveNode go s name node).2.registry := by
  have hdeps : ∀ (s : Search) (node : ResolvedPkg), P s.registry →
      P (resolveDeps go s node).2.registry :=
    fun s node h => resolveEach_keeps hgo node node.deps _ h
  unfold solveNode
  simp only
  split
  case h_1 hres => exact (congrArg (fun a : Answer => P a.2.registry) hres).mp (hdeps _ _ h)
  case h_2 => exact hdeps _ _ h

theorem tryCandidate_keeps (hgo : Keeps P go) (s : Search) (release : Release)
    (h : P s.registry) : P (tryCandidate R go s release).2.registry := by
  unfold tryCandidate
  split
  · exact h
  · exact solveNode_keeps hgo _ _ _ h

theorem tryReleases_keeps (hgo : Keeps P go) (requester : ResolvedPkg) (request : Req)
    (range : Range) (releases : List Release) (first : Option Err) (s : Search)
    (h : P s.registry) :
    P (tryReleases R go requester request range releases first s).2.registry := by
  induction releases generalizing first s with
  | nil => cases first <;> exact h
  | cons release rest ih =>
    rw [tryReleases]
    split
    · exact ih _ _ h
    · have hstep := tryCandidate_keeps (R := R) hgo s release h
      split
      case h_1 hres =>
        rw [hres] at hstep
        split
        · exact hstep
        · exact ih _ _ hstep
      case h_2 => exact hstep

theorem resolveIndexPackage_keeps (hgo : Keeps P go) (s : Search) (requester : ResolvedPkg)
    (request : Req) (range : Range) (h : P s.registry) :
    P (resolveIndexPackage R holds go s requester request range).2.registry := by
  unfold resolveIndexPackage
  split
  · exact h
  split
  · simp only
    split <;> exact h
  split
  · exact h
  · exact h
  split
  · split
    · exact h
    · split
      · exact tryCandidate_keeps hgo s _ h
      · exact h
  · exact tryReleases_keeps hgo _ _ _ _ _ _ h

theorem solveLocal_keeps (hgo : Keeps P go) (s : Search) (requester : ResolvedPkg)
    (request : Req) (pkg : RegistryPkg) (h : P s.registry) :
    P (solveLocal R holds go s requester request pkg).2.registry := by
  unfold solveLocal
  simp only
  split
  · split
    · exact h
    · exact solveNode_keeps hgo _ _ _ h
  · exact solveNode_keeps hgo _ _ _ h

theorem resolveLocalPackage_keeps (hP : R.Loads P) (hgo : Keeps P go) (s : Search)
    (requester : ResolvedPkg) (request : Req) (h : P s.registry) :
    P (resolveLocalPackage R holds go s requester request).2.registry := by
  unfold resolveLocalPackage
  split
  · exact h
  split
  · exact h
  split
  · exact solveLocal_keeps hgo _ _ _ _ h
  · split
    · exact h
    case h_2 path _ pkg registry hload =>
      exact solveLocal_keeps hgo _ _ _ _ (hP _ _ _ _ _ h hload)
  · exact h

theorem resolveDep_keeps (hP : R.Loads P) (depth : ℕ) : Keeps P (resolveDep R holds depth) := by
  induction depth with
  | zero => exact fun s node dep h => h
  | succ depth ih =>
    intro s node dep h
    unfold resolveDep
    cases R.classifyDep s.registry node dep with
    | pruned => exact h
    | process => exact h
    | isPrivate => exact h
    | scope =>
      simp only
      cases dep.source with
      | index range => exact resolveIndexPackage_keeps ih _ _ _ _ h
      | root => exact resolveLocalPackage_keeps hP ih _ _ _ h
      | file path => exact resolveLocalPackage_keeps hP ih _ _ _ h

variable (holds)

theorem solveReqs_keeps (hP : R.Loads P) (depth : ℕ) (reqs : List Req) (s : Search)
    (h : P s.registry) : P (solveReqs R holds depth reqs s).2.registry :=
  resolveEach_keeps (resolveDep_keeps hP depth) rootNode reqs s h

theorem attemptReqs_keeps (hP : R.Loads P) (depth : ℕ)
    (list : List (Str × ResolvedPkg) → List (Str × ResolvedPkg)) (keep : Bool) (reqs : List Req)
    (s : Search) (h : P s.registry) :
    P (attemptReqs R holds depth list keep reqs s).2.1.registry := by
  have hsolve := solveReqs_keeps holds hP depth reqs s h
  unfold attemptReqs
  split
  case h_1 hres =>
    rw [hres] at hsolve
    cases keep <;> exact hsolve
  case h_2 hres =>
    rw [hres] at hsolve
    exact hsolve
  case h_3 hres =>
    rw [hres] at hsolve
    exact hsolve

variable (L : Listing) (it depth : ℕ) (forced : Option Pin)

theorem walkPins_keeps (hP : R.Loads P) (reqs : List Req) (pins kept : List Pin)
    (witness : Option Witness) (s : Search) (h : P s.registry) :
    P (walkPins R L it forced depth reqs pins kept witness s).2.1.registry := by
  induction pins generalizing kept witness s with
  | nil => exact h
  | cons pin rest ih =>
    have hstep := attemptReqs_keeps ⟨forced, kept ++ [pin]⟩ hP depth
      (L.named (.witness it s.picks)) false reqs s h
    rw [walkPins]
    split
    case h_1 hres =>
      rw [hres] at hstep
      exact ih _ _ _ hstep
    case h_2 hres =>
      rw [hres] at hstep
      split
      · exact hstep
      · exact ih _ _ _ hstep
    case h_3 hres =>
      rw [hres] at hstep
      exact hstep

theorem resolvePinned_keeps (hP : R.Loads P) (reqs : List Req) (pins kept : List Pin) (s : Search)
    (h : P s.registry) :
    P (resolvePinned R L it forced depth reqs pins kept s).2.1.registry := by
  have hall := attemptReqs_keeps ⟨forced, kept ++ pins⟩ hP depth
    (L.named (.witness it s.picks)) true reqs s h
  unfold resolvePinned
  split
  case h_1 hres =>
    rw [hres] at hall
    exact hall
  case h_2 hres =>
    rw [hres] at hall
    exact hall
  case h_3 s₁ _ hres =>
    rw [hres] at hall
    split
    · exact hall
    have hwalk := walkPins_keeps L it depth forced hP reqs pins [] none s₁ hall
    split
    case h_1 hw =>
      rw [hw] at hwalk
      exact hwalk
    case h_2 hw =>
      rw [hw] at hwalk
      exact solveReqs_keeps _ hP _ _ _ hwalk
    case h_3 hw =>
      rw [hw] at hwalk
      exact hwalk

theorem resolveScope_keeps (hP : R.Loads P) (run : Run) (scope : Scope) (h : P run.registry) :
    P (resolveScope R L depth run it scope).2.registry := by
  unfold resolveScope
  simp only
  split
  · exact solveReqs_keeps _ hP _ _ _ h
  · exact resolvePinned_keeps _ _ _ _ hP _ _ _ _ h

theorem solveScope_keeps (hP : R.Loads P) (run : Run) (scope : Scope) (h : P run.registry) :
    P (solveScope R L depth run it scope).2.registry := by
  have hscope := resolveScope_keeps L it depth hP run scope h
  unfold solveScope
  split
  case h_1 run₁ hres =>
    rw [hres] at hscope
    split
    · rename_i scope' _
      have hspread := (Run.foldl_processBoundary_spec it run₁.boundaries
        (run₁.commitScope L it scope')).1
      show P (run₁.boundaries.foldl _ (run₁.commitScope L it scope')).registry
      rw [hspread.registry]
      exact hscope
    · exact hscope
  case h_2 => exact hscope

theorem solveScopes_keeps (hP : R.Loads P) (fuel it : ℕ) (progress : Bool) (run : Run)
    (h : P run.registry) : P (solveScopes R L depth fuel it progress run).2.registry := by
  induction fuel generalizing it progress run with
  | zero => exact h
  | succ fuel ih =>
    rw [solveScopes]
    split
    · split
      · exact ih _ _ _ h
      · exact h
    · split
      · exact ih _ _ _ h
      · rename_i scope _ _
        have hstep := solveScope_keeps L it depth hP run scope h
        split
        case h_1 hres =>
          rw [hres] at hstep
          exact ih _ _ _ hstep
        case h_2 => exact hstep

theorem solveOnce_keeps (H : Hashing) (reqs : List Req) (hP : R.Loads P) (fuel : ℕ)
    (registry : Registry) (h : P registry) :
    P (solveOnce R L H fuel registry forced reqs).2.run.registry := by
  have hloop := solveScopes_keeps L fuel hP fuel 0 false
    (startRun R registry forced reqs) h
  unfold solveOnce
  split
  case h_1 run hres =>
    rw [hres] at hloop
    unfold finishRun
    simp only
    repeat' split
    all_goals exact hloop
  case h_2 hres =>
    rw [hres] at hloop
    exact hloop

end

/-! ## The packages a registry can have -/

/-- The package is one of the registry at the start, or a manifest on the disk. -/
def Resolver.Knows (R : Resolver) (start : Registry) (pkg : RegistryPkg) : Prop :=
  (∃ name : Str, start.pkgs[name]? = some pkg) ∨
    ∃ (path : Path) (info : PkgInfo), R.manifests[path]? = some (some info) ∧
      pkg = ⟨.file, info, path⟩

/-- Every package of the registry is known. -/
def Resolver.Known (R : Resolver) (start registry : Registry) : Prop :=
  ∀ (name : Str) (pkg : RegistryPkg), registry.pkgs[name]? = some pkg → R.Knows start pkg

theorem Resolver.known_start (R : Resolver) (start : Registry) : R.Known start start :=
  fun name _ h => .inl ⟨name, h⟩

theorem Resolver.loads_known (R : Resolver) (start : Registry) : R.Loads (R.Known start) := by
  intro registry registry' qualified path pkg hknown hload
  unfold loadFilePkg at hload
  split at hload
  · cases hload
    exact hknown
  · split at hload
    · cases hload
    · cases hload
    · rename_i info hpath
      split at hload
      · cases hload
      · cases hload
        intro name pkg hpkg
        rcases (Table.getElem?_insert_eq_some _).1 hpkg with ⟨-, rfl⟩ | ⟨-, hold⟩
        · exact .inr ⟨path, info, hpath, rfl⟩
        · exact hknown name pkg hold

/-- The packages a registry can have. -/
def Resolver.packages (R : Resolver) (start : Registry) : List RegistryPkg :=
  start.pkgs.toList.map Prod.snd ++
    R.manifests.toList.filterMap fun entry => entry.2.map fun info => ⟨.file, info, entry.1⟩

/-- The nodes a scope can hold, but for their place in the order of the picks. -/
def Resolver.nodes (R : Resolver) (start : Registry) : List ResolvedPkg :=
  (R.index.packages.toList.flatMap fun entry =>
    match entry.2 with
    | .ok pkg => pkg.releases.map R.releaseNode
    | .error _ => []) ++ (R.packages start).map R.localNode

theorem Resolver.Knows.mem_packages {R : Resolver} {start : Registry} {pkg : RegistryPkg}
    (h : R.Knows start pkg) : pkg ∈ R.packages start := by
  rcases h with ⟨name, hstart⟩ | ⟨path, info, hpath, rfl⟩
  · exact List.mem_append_left _ (List.mem_map.2 ⟨_, (Table.mem_toList_iff _).2 hstart, rfl⟩)
  · exact List.mem_append_right _
      (List.mem_filterMap.2 ⟨_, (Table.mem_toList_iff _).2 hpath, rfl⟩)

theorem Made.mem_nodes {R : Resolver} {start registry : Registry} {node : ResolvedPkg}
    (h : Made R registry node) (hknown : R.Known start registry) : node.bare ∈ R.nodes start := by
  rcases h with ⟨pkg, release, hpkg, hrelease, hnode⟩ | ⟨pkg, hpkg, hnode⟩
  · refine List.mem_append_left _ (List.mem_flatMap.2 ⟨_, (Table.mem_toList_iff _).2 hpkg, ?_⟩)
    exact List.mem_map.2 ⟨release, hrelease, hnode.symm⟩
  · refine List.mem_append_right _ (List.mem_map.2 ⟨pkg, ?_, hnode.symm⟩)
    exact (hknown _ _ hpkg).mem_packages

end Spn.Resolve
