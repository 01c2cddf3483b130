import Spn.Resolve.Commit

/-! # More depth

A search that did not use its depth up answers the same with more of it, and so does
everything above it: what the resolver answers with enough fuel is its answer.
-/
namespace Spn.Resolve

open Spn.Lib

/-- Where the function answers, so does the other one, and the same. -/
def Below (go go' : Search → ResolvedPkg → Req → Answer) : Prop :=
  ∀ (s : Search) (node : ResolvedPkg) (dep : Req), (go s node dep).1 ≠ .stuck →
    go' s node dep = go s node dep

section

variable {R : Resolver} {holds : Holds} {go go' : Search → ResolvedPkg → Req → Answer}

theorem resolveEach_below (hgo : Below go go') (node : ResolvedPkg) (reqs : List Req) (s : Search)
    (h : (resolveEach go node reqs s).1 ≠ .stuck) :
    resolveEach go' node reqs s = resolveEach go node reqs s := by
  induction reqs generalizing s with
  | nil => rfl
  | cons dep rest ih =>
    have hstep := hgo s node dep
    rw [resolveEach] at h ⊢
    rw [resolveEach]
    rcases hres : go s node dep with ⟨verdict, s'⟩
    rw [hres] at h hstep
    cases verdict with
    | ok =>
      rw [hstep Verdict.noConfusion]
      exact ih s' h
    | err e => rw [hstep Verdict.noConfusion]
    | stuck => exact absurd rfl h

theorem solveNode_below (hgo : Below go go') (s : Search) (name : Str) (node : ResolvedPkg)
    (h : (solveNode go s name node).1 ≠ .stuck) :
    solveNode go' s name node = solveNode go s name node := by
  have hdeps : ∀ (s : Search) (node : ResolvedPkg), (resolveDeps go s node).1 ≠ .stuck →
      resolveDeps go' s node = resolveDeps go s node := by
    intro s node h
    unfold resolveDeps at h ⊢
    rw [resolveEach_below hgo node node.deps _ h]
  let placed : ResolvedPkg := { node with priority := s.picks }
  let s₁ : Search := { s with picks := s.picks + 1, named := s.named.insert name placed }
  have heq : ∀ go, solveNode go s name node = Answer.undone (resolveDeps go s₁ placed) s :=
    fun go => solveNode_eq go s name node
  rw [heq] at h ⊢
  rw [heq, hdeps s₁ placed]
  intro hstuck
  rcases hres : resolveDeps go s₁ placed with ⟨verdict, s'⟩
  rw [hres] at h hstuck
  cases hstuck
  exact h rfl

theorem tryCandidate_below (hgo : Below go go') (s : Search) (release : Release)
    (h : (tryCandidate R go s release).1 ≠ .stuck) :
    tryCandidate R go' s release = tryCandidate R go s release := by
  unfold tryCandidate at h ⊢
  split
  · rfl
  · rename_i hopen
    rw [if_neg hopen] at h
    exact solveNode_below hgo _ _ _ h

theorem tryReleases_below (hgo : Below go go') (requester : ResolvedPkg) (request : Req)
    (range : Range) (releases : List Release) (first : Option Err) (s : Search)
    (h : (tryReleases R go requester request range releases first s).1 ≠ .stuck) :
    tryReleases R go' requester request range releases first s =
      tryReleases R go requester request range releases first s := by
  induction releases generalizing first s with
  | nil => cases first <;> rfl
  | cons release rest ih =>
    rw [tryReleases] at h ⊢
    rw [tryReleases]
    by_cases hskip : release.yanked ∨ ¬ release.version.inRange range
    · rw [if_pos hskip] at h ⊢
      rw [if_pos hskip]
      exact ih _ _ h
    · rw [if_neg hskip] at h ⊢
      rw [if_neg hskip]
      have hstep := tryCandidate_below (R := R) hgo s release
      rcases hres : tryCandidate R go s release with ⟨verdict, s'⟩
      rw [hres] at h hstep
      cases verdict with
      | ok => rw [hstep Verdict.noConfusion]
      | stuck => exact absurd rfl h
      | err e =>
        rw [hstep Verdict.noConfusion]
        simp only at h ⊢
        by_cases hfatal : s'.fatal = true
        · rw [if_pos hfatal, if_pos hfatal]
        · rw [if_neg hfatal] at h ⊢
          rw [if_neg hfatal]
          exact ih _ _ h

theorem resolveIndexPackage_below (hgo : Below go go') (s : Search) (requester : ResolvedPkg)
    (request : Req) (range : Range)
    (h : (resolveIndexPackage R holds go s requester request range).1 ≠ .stuck) :
    resolveIndexPackage R holds go' s requester request range =
      resolveIndexPackage R holds go s requester request range := by
  unfold resolveIndexPackage at h ⊢
  by_cases hvisited : request.qualified ∈ s.visited
  · rw [if_pos hvisited, if_pos hvisited]
  rw [if_neg hvisited] at h ⊢
  rw [if_neg hvisited]
  cases hheld : s.named[request.qualified]? with
  | some existing => rfl
  | none =>
    simp only [hheld] at h ⊢
    rcases hpkg : R.index.packages[request.qualified]? with _ | _ | pkg
    · rfl
    · rfl
    simp only [hpkg] at h ⊢
    rcases hfind : holds.find request.qualified with _ | ⟨pinned, contradiction⟩
    · simp only [hfind] at h ⊢
      exact tryReleases_below hgo _ _ _ _ _ _ h
    · simp only [hfind] at h ⊢
      by_cases hconflict : contradiction = true ∨ ¬ pinned.inRange range = true
      · rw [if_pos hconflict, if_pos hconflict]
      · rw [if_neg hconflict] at h ⊢
        rw [if_neg hconflict]
        cases hrelease : pkg.releases.find? fun release => release.version = pinned with
        | none => rfl
        | some release =>
          simp only [hrelease] at h ⊢
          exact tryCandidate_below hgo s release h

theorem solveLocal_below (hgo : Below go go') (s : Search) (requester : ResolvedPkg)
    (request : Req) (pkg : RegistryPkg)
    (h : (solveLocal R holds go s requester request pkg).1 ≠ .stuck) :
    solveLocal R holds go' s requester request pkg =
      solveLocal R holds go s requester request pkg := by
  unfold solveLocal at h ⊢
  simp only at h ⊢
  rcases hfind : holds.find request.qualified with _ | ⟨pinned, contradiction⟩
  · simp only [hfind] at h ⊢
    exact solveNode_below hgo _ _ _ h
  · simp only [hfind] at h ⊢
    by_cases hconflict : contradiction = true ∨ pkg.info.version ≠ pinned
    · rw [if_pos hconflict, if_pos hconflict]
    · rw [if_neg hconflict] at h ⊢
      rw [if_neg hconflict]
      exact solveNode_below hgo _ _ _ h

theorem resolveLocalPackage_below (hgo : Below go go') (s : Search) (requester : ResolvedPkg)
    (request : Req) (h : (resolveLocalPackage R holds go s requester request).1 ≠ .stuck) :
    resolveLocalPackage R holds go' s requester request =
      resolveLocalPackage R holds go s requester request := by
  unfold resolveLocalPackage at h ⊢
  by_cases hvisited : request.qualified ∈ s.visited
  · rw [if_pos hvisited, if_pos hvisited]
  rw [if_neg hvisited] at h ⊢
  rw [if_neg hvisited]
  cases hheld : s.named[request.qualified]? with
  | some existing => rfl
  | none =>
    simp only [hheld] at h ⊢
    rcases hpkg : s.registry.pkgs[request.qualified]? with _ | pkg
    · rcases hsource : request.source with _ | path | range
      · rfl
      · simp only [hpkg, hsource] at h ⊢
        rcases hload : loadFilePkg R s.registry request.qualified path with e | ⟨pkg, registry⟩
        · rfl
        · simp only [hload] at h ⊢
          exact solveLocal_below hgo _ _ _ _ h
      · rfl
    · simp only [hpkg] at h ⊢
      exact solveLocal_below hgo _ _ _ _ h

/-- A search that did not use its depth up answers the same one deeper. -/
theorem resolveDep_below (depth : ℕ) :
    Below (resolveDep R holds depth) (resolveDep R holds (depth + 1)) := by
  induction depth with
  | zero => exact fun s node dep h => absurd rfl h
  | succ depth ih =>
    intro s node dep h
    rw [resolveDep] at h ⊢
    rw [resolveDep]
    cases hclass : R.classifyDep s.registry node dep with
    | pruned => rfl
    | process => rfl
    | isPrivate => rfl
    | scope =>
      simp only [hclass] at h ⊢
      cases hsource : dep.source with
      | index range =>
        simp only [hsource] at h ⊢
        exact resolveIndexPackage_below ih _ _ _ _ h
      | root =>
        simp only [hsource] at h ⊢
        exact resolveLocalPackage_below ih _ _ _ h
      | file path =>
        simp only [hsource] at h ⊢
        exact resolveLocalPackage_below ih _ _ _ h

variable (R) (holds)

theorem solveReqs_deeper {depth depth' : ℕ} (hle : depth ≤ depth') (reqs : List Req) (s : Search)
    (h : (solveReqs R holds depth reqs s).1 ≠ .stuck) :
    solveReqs R holds depth' reqs s = solveReqs R holds depth reqs s := by
  induction depth', hle using Nat.le_induction with
  | base => rfl
  | succ k hk ih =>
    rw [← ih]
    refine resolveEach_below (resolveDep_below k) rootNode reqs s ?_
    show (solveReqs R holds k reqs s).1 ≠ .stuck
    rwa [ih]

variable (L : Listing) (it : ℕ) (forced : Option Pin) {depth depth' : ℕ}

theorem attemptReqs_deeper (hle : depth ≤ depth')
    (list : List (Str × ResolvedPkg) → List (Str × ResolvedPkg)) (keep : Bool) (reqs : List Req)
    (s : Search) (h : (attemptReqs R holds depth list keep reqs s).1 ≠ .stuck) :
    attemptReqs R holds depth' list keep reqs s = attemptReqs R holds depth list keep reqs s := by
  unfold attemptReqs at h ⊢
  have hsolve := solveReqs_deeper R holds hle reqs s
  rcases hres : solveReqs R holds depth reqs s with ⟨verdict, s'⟩
  rw [hres] at h hsolve
  cases verdict with
  | ok => rw [hsolve Verdict.noConfusion]
  | err e => rw [hsolve Verdict.noConfusion]
  | stuck => exact absurd rfl h

theorem walkPins_deeper (hle : depth ≤ depth') (reqs : List Req) (pins kept : List Pin)
    (witness : Option Witness) (s : Search)
    (h : (walkPins R L it forced depth reqs pins kept witness s).1 ≠ .stuck) :
    walkPins R L it forced depth' reqs pins kept witness s =
      walkPins R L it forced depth reqs pins kept witness s := by
  induction pins generalizing kept witness s with
  | nil => rfl
  | cons pin rest ih =>
    rw [walkPins] at h ⊢
    rw [walkPins]
    have hattempt := attemptReqs_deeper R ⟨forced, kept ++ [pin]⟩ hle
      (L.named (.witness it s.picks)) false reqs s
    rcases hres : attemptReqs R ⟨forced, kept ++ [pin]⟩ depth (L.named (.witness it s.picks)) false
      reqs s with ⟨verdict, s', found⟩
    rw [hres] at h hattempt
    cases verdict with
    | ok =>
      rw [hattempt Verdict.noConfusion]
      exact ih _ _ _ h
    | stuck => exact absurd rfl h
    | err e =>
      rw [hattempt Verdict.noConfusion]
      simp only at h ⊢
      by_cases hfatal : s'.fatal = true
      · rw [if_pos hfatal, if_pos hfatal]
      · rw [if_neg hfatal] at h ⊢
        rw [if_neg hfatal]
        exact ih _ _ _ h

theorem resolvePinned_deeper (hle : depth ≤ depth') (reqs : List Req) (pins kept : List Pin)
    (s : Search) (h : (resolvePinned R L it forced depth reqs pins kept s).1 ≠ .stuck) :
    resolvePinned R L it forced depth' reqs pins kept s =
      resolvePinned R L it forced depth reqs pins kept s := by
  unfold resolvePinned at h ⊢
  have hattempt := attemptReqs_deeper R ⟨forced, kept ++ pins⟩ hle
    (L.named (.witness it s.picks)) true reqs s
  rcases hres : attemptReqs R ⟨forced, kept ++ pins⟩ depth (L.named (.witness it s.picks)) true
    reqs s with ⟨verdict, s', found⟩
  rw [hres] at h hattempt
  cases verdict with
  | ok => rw [hattempt Verdict.noConfusion]
  | stuck => exact absurd rfl h
  | err e =>
    rw [hattempt Verdict.noConfusion]
    simp only at h ⊢
    by_cases hfatal : s'.fatal = true
    · rw [if_pos hfatal, if_pos hfatal]
    rw [if_neg hfatal] at h ⊢
    rw [if_neg hfatal]
    have hwalk := walkPins_deeper R L it forced hle reqs pins [] none s'
    rcases hw : walkPins R L it forced depth reqs pins [] none s' with
      ⟨verdict, s₂, kept₂, witness⟩
    rw [hw] at h hwalk
    cases verdict with
    | stuck => exact absurd rfl h
    | err e => rw [hwalk Verdict.noConfusion]
    | ok =>
      rw [hwalk Verdict.noConfusion]
      cases witness with
      | some w => rfl
      | none =>
        simp only at h ⊢
        rw [solveReqs_deeper R _ hle reqs s₂ h]

theorem resolveScope_deeper (hle : depth ≤ depth') (run : Run) (scope : Scope)
    (h : (resolveScope R L depth run it scope).1 ≠ .stuck) :
    resolveScope R L depth' run it scope = resolveScope R L depth run it scope := by
  unfold resolveScope at h ⊢
  simp only at h ⊢
  split
  · rename_i hfirst
    rw [if_pos hfirst] at h
    rw [solveReqs_deeper R _ hle _ _ h]
  · rename_i hlater
    rw [if_neg hlater] at h
    rw [resolvePinned_deeper R L it _ hle _ _ _ _ h]

theorem solveScope_deeper (hle : depth ≤ depth') (run : Run) (scope : Scope)
    (h : (solveScope R L depth run it scope).1 ≠ .stuck) :
    solveScope R L depth' run it scope = solveScope R L depth run it scope := by
  unfold solveScope at h ⊢
  rw [resolveScope_deeper R L it hle]
  intro hstuck
  rcases hres : resolveScope R L depth run it scope with ⟨verdict, run'⟩
  rw [hres] at h hstuck
  cases hstuck
  exact h rfl

/-- The loop answers the same with more of both. -/
theorem solveScopes_deeper (hle : depth ≤ depth') {fuel fuel' : ℕ} (hfuel : fuel ≤ fuel')
    (progress : Bool) (run : Run)
    (h : (solveScopes R L depth fuel it progress run).1 ≠ .stuck) :
    solveScopes R L depth' fuel' it progress run = solveScopes R L depth fuel it progress run := by
  induction fuel generalizing it progress run fuel' with
  | zero => exact absurd rfl h
  | succ fuel ih =>
    obtain ⟨fuel', rfl⟩ := Nat.exists_eq_succ_of_ne_zero (by omega : fuel' ≠ 0)
    have hfuel := Nat.succ_le_succ_iff.1 hfuel
    rw [solveScopes] at h ⊢
    rw [solveScopes]
    cases hscope : run.scopes[it]? with
    | none =>
      simp only [hscope] at h ⊢
      cases progress with
      | true => exact ih _ hfuel _ _ h
      | false => rfl
    | some scope =>
      simp only [hscope] at h ⊢
      by_cases hdone : scope.cursor = scope.reqs.length
      · rw [if_pos hdone] at h ⊢
        rw [if_pos hdone]
        exact ih _ hfuel _ _ h
      · rw [if_neg hdone] at h ⊢
        rw [if_neg hdone]
        have hsolve := solveScope_deeper R L it hle run scope
        rcases hres : solveScope R L depth run it scope with ⟨verdict, run'⟩
        rw [hres] at h hsolve
        cases verdict with
        | ok =>
          rw [hsolve Verdict.noConfusion]
          exact ih _ hfuel _ _ h
        | err e => rw [hsolve Verdict.noConfusion]
        | stuck => exact absurd rfl h

/-- With enough fuel the run of `solve_once` is the run. -/
theorem solveOnce_deeper (H : Hashing) {fuel fuel' : ℕ} (hle : fuel ≤ fuel') (registry : Registry)
    (reqs : List Req) (h : (solveOnce R L H fuel registry forced reqs).1 ≠ .stuck) :
    solveOnce R L H fuel' registry forced reqs = solveOnce R L H fuel registry forced reqs := by
  unfold solveOnce at h ⊢
  rw [solveScopes_deeper R L 0 hle hle]
  intro hstuck
  rcases hres : solveScopes R L fuel fuel 0 false (startRun R registry forced reqs) with
    ⟨verdict, run'⟩
  rw [hres] at h hstuck
  cases hstuck
  exact h rfl

theorem retryForced_deeper (H : Hashing) {fuel fuel' : ℕ} (hle : fuel ≤ fuel') (reqs : List Req)
    (first : Err) (pins : List Pin) (solved : Solved)
    (h : (retryForced R L H fuel reqs first pins solved).1 ≠ .stuck) :
    retryForced R L H fuel' reqs first pins solved =
      retryForced R L H fuel reqs first pins solved := by
  induction pins generalizing solved with
  | nil => rfl
  | cons pin rest ih =>
    rw [retryForced] at h ⊢
    rw [retryForced]
    have honce := solveOnce_deeper R L (some pin) H hle
      solved.run.registry reqs
    rcases hres : solveOnce R L H fuel solved.run.registry (some pin) reqs with ⟨verdict, solved'⟩
    rw [hres] at h honce
    cases verdict with
    | ok => rw [honce Verdict.noConfusion]
    | stuck => exact absurd rfl h
    | err e =>
      rw [honce Verdict.noConfusion]
      exact ih solved' h

theorem resolveFromSolver_deeper (H : Hashing) {fuel fuel' : ℕ} (hle : fuel ≤ fuel')
    (registry : Registry) (reqs : List Req)
    (h : (resolveFromSolver R L H fuel registry reqs).1 ≠ .stuck) :
    resolveFromSolver R L H fuel' registry reqs = resolveFromSolver R L H fuel registry reqs := by
  unfold resolveFromSolver at h ⊢
  have honce := solveOnce_deeper R L none H hle registry reqs
  rcases hres : solveOnce R L H fuel registry none reqs with ⟨verdict, solved⟩
  rw [hres] at h honce
  cases verdict with
  | ok => rw [honce Verdict.noConfusion]
  | stuck => exact absurd rfl h
  | err e =>
    rw [honce Verdict.noConfusion]
    exact retryForced_deeper R L H hle reqs e _ solved h

end

end Spn.Resolve
