import Spn.Resolve.Reentry
import Spn.Resolve.Rollback

/-! # Which pins are kept

The walk over the pins keeps one after the other what an attempt succeeds with, and the
assignment the scope gets is the one of the last attempt that did. A search that is held
to versions takes no other ones, so that assignment agrees with every pin that was kept;
a pin that a retry forces is the only version of its name in the whole run.
-/
namespace Spn.Resolve

open Spn.Lib

/-! ## A search takes the versions it is held to -/

/-- The names have the versions they are held to. -/
def Obeys (holds : Holds) (named : Table Str ResolvedPkg) : Prop :=
  ∀ name node, named[name]? = some node → ∀ version contradiction,
    holds.find name = some (version, contradiction) →
      contradiction = false ∧ node.id.version = version

/-- The function takes no names of other versions. -/
def Obeying (holds : Holds) (go : Search → ResolvedPkg → Req → Answer) : Prop :=
  ∀ s node dep, Obeys holds s.named → Obeys holds (go s node dep).2.named

section

variable {R : Resolver} {holds : Holds} {go : Search → ResolvedPkg → Req → Answer}

theorem Obeys.empty : Obeys holds ∅ := by
  intro name node h
  simp at h

theorem Obeys.insert {named : Table Str ResolvedPkg} (h : Obeys holds named) {name : Str}
    {node : ResolvedPkg} (hnode : ∀ version contradiction,
      holds.find name = some (version, contradiction) →
        contradiction = false ∧ node.id.version = version) :
    Obeys holds (named.insert name node) := by
  intro k held hk
  rcases (Table.getElem?_insert_eq_some _).1 hk with ⟨rfl, rfl⟩ | ⟨-, hk⟩
  · exact hnode
  · exact h k held hk

theorem Obeys.restrict {named before : Table Str ResolvedPkg} (h : Obeys holds named) :
    Obeys holds (named.restrict before) := by
  intro k node hk
  rw [Table.getElem?_restrict] at hk
  split at hk
  · exact h k node hk
  · cases hk

theorem resolveEach_obeys (hgo : Obeying holds go) (node : ResolvedPkg) (reqs : List Req)
    {s : Search} (h : Obeys holds s.named) : Obeys holds (resolveEach go node reqs s).2.named := by
  induction reqs generalizing s with
  | nil => exact h
  | cons dep rest ih =>
    have hstep := hgo s node dep h
    rw [resolveEach]
    rcases hres : go s node dep with ⟨verdict, s₁⟩
    rw [hres] at hstep
    cases verdict with
    | ok => exact ih hstep
    | err e => exact hstep
    | stuck => exact hstep

theorem solveNode_obeys (hgo : Obeying holds go) {s : Search} (h : Obeys holds s.named) (name : Str)
    (node : ResolvedPkg) (hnode : ∀ version contradiction,
      holds.find name = some (version, contradiction) →
        contradiction = false ∧ node.id.version = version) :
    Obeys holds (solveNode go s name node).2.named := by
  have hdeps : ∀ (s : Search) (node : ResolvedPkg), Obeys holds s.named →
      Obeys holds (resolveDeps go s node).2.named :=
    fun s node h => resolveEach_obeys hgo node node.deps h
  have hopened : Obeys holds (s.named.insert name { node with priority := s.picks }) :=
    h.insert hnode
  have hsolved := hdeps
    { s with picks := s.picks + 1, named := s.named.insert name { node with priority := s.picks } }
    { node with priority := s.picks } hopened
  unfold solveNode
  simp only
  split
  case h_1 e failed hres =>
    rw [hres] at hsolved
    exact Obeys.restrict hsolved
  case h_2 => exact hsolved

theorem tryCandidate_obeys (hgo : Obeying holds go) {s : Search} (h : Obeys holds s.named)
    {release : Release} (hnode : ∀ version contradiction,
      holds.find release.qualified = some (version, contradiction) →
        contradiction = false ∧ release.version = version) :
    Obeys holds (tryCandidate R go s release).2.named := by
  unfold tryCandidate
  split
  case isTrue => exact h
  case isFalse =>
    exact solveNode_obeys (s := { s with budget := s.budget - 1 }) hgo h release.qualified
      (R.releaseNode release) hnode

theorem tryReleases_obeys (hgo : Obeying holds go) {requester : ResolvedPkg} {request : Req}
    {range : Range} (hfree : holds.find request.qualified = none) {releases : List Release}
    (hown : ∀ r ∈ releases, r.qualified = request.qualified) {first : Option Err} {s : Search}
    (h : Obeys holds s.named) :
    Obeys holds (tryReleases R go requester request range releases first s).2.named := by
  induction releases generalizing first s with
  | nil => cases first <;> exact h
  | cons release rest ih =>
    have hrest : ∀ r ∈ rest, r.qualified = request.qualified :=
      fun r hr => hown r (List.mem_cons_of_mem _ hr)
    rw [tryReleases]
    split
    case isTrue => exact ih hrest h
    case isFalse =>
      have htry := tryCandidate_obeys (R := R) hgo h fun version contradiction hf => by
        rw [hown release List.mem_cons_self, hfree] at hf
        cases hf
      rcases hres : tryCandidate R go s release with ⟨verdict, s₁⟩
      rw [hres] at htry
      cases verdict with
      | ok => exact htry
      | stuck => exact htry
      | err e =>
        simp only
        split
        case isTrue => exact htry
        case isFalse => exact ih hrest htry

theorem resolveIndexPackage_obeys (hgo : Obeying holds go) {s : Search} (h : Obeys holds s.named)
    (requester : ResolvedPkg) (request : Req) (range : Range) :
    Obeys holds (resolveIndexPackage R holds go s requester request range).2.named := by
  unfold resolveIndexPackage
  split
  case isTrue => exact h
  case isFalse =>
    cases s.named[request.qualified]? with
    | some existing =>
      simp only
      split
      case isTrue => exact h
      case isFalse => exact h
    | none =>
      simp only
      cases hpkg : R.index.packages[request.qualified]? with
      | none => exact h
      | some got =>
        cases got with
        | error diag => exact h
        | ok pkg =>
          have hown : ∀ r ∈ pkg.releases, r.qualified = request.qualified := R.index.own _ _ hpkg
          simp only
          cases hfind : holds.find request.qualified with
          | none => exact tryReleases_obeys hgo hfind (fun r hr => hown r (List.mem_reverse.1 hr)) h
          | some found =>
            obtain ⟨pinned, contradiction⟩ := found
            simp only
            split
            case isTrue => exact h
            case isFalse hlegal =>
              cases hrelease : pkg.releases.find? fun release => release.version = pinned with
              | none => exact h
              | some release =>
                refine tryCandidate_obeys hgo h fun version contradiction' hf => ?_
                rw [hown release (List.mem_of_find?_eq_some hrelease), hfind] at hf
                cases hf
                have hversion : release.version = pinned := by simpa using List.find?_some hrelease
                exact ⟨by simpa using (not_or.1 hlegal).1, hversion⟩

theorem solveLocal_obeys (hgo : Obeying holds go) {s : Search} (h : Obeys holds s.named)
    (requester : ResolvedPkg) (request : Req) (pkg : RegistryPkg) :
    Obeys holds (solveLocal R holds go s requester request pkg).2.named := by
  have hsolve := solveNode_obeys
    (s := { s with met := s.met ++ [⟨requester.id, holds, request, R.localNode pkg⟩] })
    hgo h request.qualified (R.localNode pkg)
  unfold solveLocal
  simp only
  cases hfind : holds.find request.qualified with
  | none =>
    refine hsolve fun version contradiction hf => ?_
    rw [hfind] at hf
    cases hf
  | some found =>
    obtain ⟨pinned, contradiction⟩ := found
    simp only
    split
    case isTrue => exact h
    case isFalse hlegal =>
      refine hsolve fun version contradiction' hf => ?_
      rw [hfind] at hf
      cases hf
      obtain ⟨hno, hversion⟩ := not_or.1 hlegal
      exact ⟨by simpa using hno, not_not.1 hversion⟩

theorem resolveLocalPackage_obeys (hgo : Obeying holds go) {s : Search} (h : Obeys holds s.named)
    (requester : ResolvedPkg) (request : Req) :
    Obeys holds (resolveLocalPackage R holds go s requester request).2.named := by
  unfold resolveLocalPackage
  split
  case isTrue => exact h
  case isFalse =>
    cases s.named[request.qualified]? with
    | some existing => exact h
    | none =>
      simp only
      cases s.registry.pkgs[request.qualified]? with
      | some pkg => exact solveLocal_obeys hgo h requester request pkg
      | none =>
        cases request.source with
        | root => exact h
        | index range => exact h
        | file path =>
          simp only
          cases loadFilePkg R s.registry request.qualified path with
          | error e => exact h
          | ok loaded =>
            exact solveLocal_obeys (s := { s with registry := loaded.2 }) hgo h requester request
              loaded.1

theorem resolveDep_obeying (depth : ℕ) : Obeying holds (resolveDep R holds depth) := by
  induction depth with
  | zero => exact fun s node dep h => h
  | succ depth ih =>
    intro s node dep h
    rw [resolveDep_succ]
    unfold resolveStep
    cases R.classifyDep s.registry node dep with
    | pruned => exact h
    | process => exact h
    | isPrivate => exact h
    | scope =>
      cases dep.source with
      | index range => exact resolveIndexPackage_obeys ih h node dep range
      | root => exact resolveLocalPackage_obeys ih h node dep
      | file path => exact resolveLocalPackage_obeys ih h node dep

theorem solveReqs_obeys (depth : ℕ) (reqs : List Req) {s : Search} (h : Obeys holds s.named) :
    Obeys holds (solveReqs R holds depth reqs s).2.named :=
  resolveEach_obeys (resolveDep_obeying depth) rootNode reqs h

/-- A name that is held has the version of each of its pins, if the forced one is among
them or of another name. -/
theorem Obeys.pin {forced : Option Pin} {pins : List Pin} {named : Table Str ResolvedPkg}
    (h : Obeys ⟨forced, pins⟩ named) {pin : Pin} (hmem : pin ∈ pins)
    (hforced : ∀ p, forced = some p → p.name = pin.name → pin.version = p.version)
    {node : ResolvedPkg} (held : named[pin.name]? = some node) : node.id.version = pin.version := by
  cases hf : findForced forced pin.name with
  | some version =>
    obtain ⟨-, hversion⟩ := h pin.name node held version false (by simp [Holds.find, hf])
    unfold findForced at hf
    cases forced with
    | none => cases hf
    | some p =>
      simp only at hf
      split at hf
      case isTrue hname =>
        cases hf
        rw [hversion, hforced p rfl hname]
      case isFalse => cases hf
  | none =>
    have hpin : pin ∈ pins.filter fun p => p.name = pin.name := List.mem_filter.2 ⟨hmem, by simp⟩
    cases hfilter : pins.filter fun p => p.name = pin.name with
    | nil =>
      rw [hfilter] at hpin
      cases hpin
    | cons first rest =>
      obtain ⟨hno, hversion⟩ := h pin.name node held first.version
        (rest.any fun other => other.version ≠ first.version)
        (by simp [Holds.find, hf, findPin, hfilter])
      rw [hfilter] at hpin
      rcases List.mem_cons.1 hpin with rfl | hrest
      · exact hversion
      · have hsame : pin.version = first.version := by
          simpa using List.any_eq_false.1 hno pin hrest
        rw [hversion, hsame]

end

/-! ## The walk -/

/-- The walk over the pins under `attempt`: a pin is kept if the attempt under it and those
kept before succeeds. -/
inductive PinWalk (attempt : List Pin → Search → Verdict × Search × Option Witness) :
    List Pin → List Pin → Search → List Pin → Search → Prop
  | nil (kept : List Pin) (s : Search) : PinWalk attempt [] kept s kept s
  | keep {pin : Pin} {pins kept kept' : List Pin} {s s₁ s' : Search} {found : Option Witness} :
      attempt (kept ++ [pin]) s = (.ok, s₁, found) →
      PinWalk attempt pins (kept ++ [pin]) s₁ kept' s' →
      PinWalk attempt (pin :: pins) kept s kept' s'
  | drop {pin : Pin} {pins kept kept' : List Pin} {s s₁ s' : Search} {found : Option Witness}
      {e : Err} : attempt (kept ++ [pin]) s = (.err e, s₁, found) →
      PinWalk attempt pins kept s₁ kept' s' → PinWalk attempt (pin :: pins) kept s kept' s'

theorem PinWalk.mem {attempt : List Pin → Search → Verdict × Search × Option Witness}
    {pins kept kept' : List Pin} {s s' : Search} (h : PinWalk attempt pins kept s kept' s') :
    ∀ pin ∈ kept', pin ∈ kept ∨ pin ∈ pins := by
  induction h with
  | nil => exact fun pin hpin => .inl hpin
  | keep _ _ ih =>
    intro p hp
    rcases ih p hp with hkept | hpins
    · rcases List.mem_append.1 hkept with hkept | hnew
      · exact .inl hkept
      · exact .inr (List.mem_singleton.1 hnew ▸ List.mem_cons_self)
    · exact .inr (List.mem_cons_of_mem _ hpins)
  | drop _ _ ih => exact fun p hp => (ih p hp).imp_right (List.mem_cons_of_mem _)

/-- The attempts of the walk. -/
def walkAttempt (R : Resolver) (L : Listing) (it : ℕ) (forced : Option Pin) (depth : ℕ)
    (reqs : List Req) (pins : List Pin) (s : Search) : Verdict × Search × Option Witness :=
  attemptReqs R ⟨forced, pins⟩ depth (L.named (.witness it s.picks)) false reqs s

/-- From the names and boundaries of `s`, one successful search under `holds` leads to
those of `s'`. -/
def SolvedOnce (R : Resolver) (holds : Holds) (depth : ℕ) (reqs : List Req) (s s' : Search) :
    Prop :=
  ∃ start solved, start.named = s.named ∧ start.boundaries = s.boundaries ∧
    solveReqs R holds depth reqs start = (.ok, solved) ∧ s'.named = solved.named ∧
    s'.boundaries = solved.boundaries

section

variable {R : Resolver} {L : Listing} {it depth : ℕ} {forced : Option Pin} {reqs : List Req}

theorem SolvedOnce.obeys {holds : Holds} {s s' : Search}
    (h : SolvedOnce R holds depth reqs s s') (hs : Obeys holds s.named) : Obeys holds s'.named := by
  obtain ⟨start, solved, hstart, -, hsolve, hn, -⟩ := h
  have hsolved := solveReqs_obeys (R := R) depth reqs (hstart ▸ hs)
  rw [hsolve] at hsolved
  exact hn ▸ hsolved

theorem attemptReqs_undone {holds : Holds} {keep : Bool}
    {list : List (Str × ResolvedPkg) → List (Str × ResolvedPkg)} {s s₁ : Search}
    {found : Option Witness} {e : Err}
    (h : attemptReqs R holds depth list keep reqs s = (.err e, s₁, found)) :
    s.RolledBack R s₁ := by
  have hback := attemptReqs_rolledBack (R := R)
    (s := s) (.inl ⟨e, by rw [h]⟩)
  rwa [h] at hback

/-- An attempt of the walk that succeeds leaves the scope as it was, and its assignment in
the witness. -/
theorem walkAttempt_ok {pins : List Pin} {s s₁ : Search} {found : Option Witness}
    (h : walkAttempt R L it forced depth reqs pins s = (.ok, s₁, found)) :
    s.RolledBack R s₁ ∧ ∃ w, found = some w ∧
      SolvedOnce R ⟨forced, pins⟩ depth reqs s₁ (s₁.adopt w) := by
  have hback := attemptReqs_rolledBack (R := R)
    (s := s)
    (.inr ⟨rfl, by rw [show attemptReqs R ⟨forced, pins⟩ depth _ false reqs s = _ from h]⟩)
  rw [show attemptReqs R ⟨forced, pins⟩ depth _ false reqs s = _ from h] at hback
  obtain ⟨hgrows, -⟩ := resolveEach_careful
    (resolveDep_undoing (R := R) depth)
    (fun _ _ _ => rfl) reqs (s := s) rfl
  unfold walkAttempt attemptReqs at h
  rcases hres : solveReqs R ⟨forced, pins⟩ depth reqs s with ⟨verdict, solved⟩
  rw [show resolveEach _ rootNode reqs s = solveReqs R ⟨forced, pins⟩ depth reqs s from rfl,
    hres] at hgrows
  rw [hres] at h
  cases verdict with
  | err e => cases h
  | stuck => cases h
  | ok =>
    cases h
    obtain ⟨he, -⟩ := hgrows Verdict.noConfusion
    obtain ⟨hn, hb⟩ := adopt_captured he (L.named_perm (.witness it s.picks))
    exact ⟨hback, _, rfl, s, solved, hback.named.symm, hback.boundaries.symm, hres, hn, hb⟩

theorem SolvedOnce.later {holds : Holds} {s s₁ : Search} {w : Witness}
    (h : SolvedOnce R holds depth reqs s (s.adopt w)) (hback : s.RolledBack R s₁) :
    SolvedOnce R holds depth reqs s₁ (s₁.adopt w) := by
  obtain ⟨start, solved, hn, hb, hsolve, hn', hb'⟩ := h
  refine ⟨start, solved, hn.trans hback.named.symm, hb.trans hback.boundaries.symm, hsolve, ?_, ?_⟩
  · simpa only [Search.adopt, hback.named] using hn'
  · simpa only [Search.adopt, hback.boundaries] using hb'

/-- The witness is of the last attempt that succeeded, and that was under the kept pins. -/
def Witnessed (R : Resolver) (forced : Option Pin) (depth : ℕ) (reqs : List Req) (s : Search)
    (kept : List Pin) : Option Witness → Prop
  | none => kept = []
  | some w => SolvedOnce R ⟨forced, kept⟩ depth reqs s (s.adopt w)

theorem Witnessed.later {s s₁ : Search} {kept : List Pin} {witness : Option Witness}
    (h : Witnessed R forced depth reqs s kept witness) (hback : s.RolledBack R s₁) :
    Witnessed R forced depth reqs s₁ kept witness := by
  cases witness with
  | none => exact h
  | some w => exact SolvedOnce.later h hback

theorem walkPins_walk {pins kept kept' : List Pin} {witness witness' : Option Witness}
    {s s' : Search} (hw : Witnessed R forced depth reqs s kept witness)
    (h : walkPins R L it forced depth reqs pins kept witness s = (.ok, s', kept', witness')) :
    PinWalk (walkAttempt R L it forced depth reqs) pins kept s kept' s' ∧
      s'.named = s.named ∧ s'.boundaries = s.boundaries ∧
      Witnessed R forced depth reqs s' kept' witness' := by
  induction pins generalizing kept witness s with
  | nil =>
    simp only [walkPins, Prod.mk.injEq] at h
    obtain ⟨-, rfl, rfl, rfl⟩ := h
    exact ⟨.nil kept s, rfl, rfl, hw⟩
  | cons pin rest ih =>
    rw [walkPins] at h
    rcases hres : attemptReqs R ⟨forced, kept ++ [pin]⟩ depth (L.named (.witness it s.picks)) false
      reqs s with ⟨verdict, s₁, found⟩
    rw [hres] at h
    cases verdict with
    | stuck => cases h
    | ok =>
      obtain ⟨hback, w, rfl, hsolved⟩ := walkAttempt_ok hres
      have hw₁ : Witnessed R forced depth reqs s₁ (kept ++ [pin]) (some w) := hsolved
      obtain ⟨hwalk, hn, hb, hw'⟩ := ih hw₁ h
      exact ⟨.keep hres hwalk, hn.trans hback.named, hb.trans hback.boundaries, hw'⟩
    | err e =>
      have hback := attemptReqs_undone hres
      simp only at h
      split at h
      case isTrue => cases h
      case isFalse =>
        obtain ⟨hwalk, hn, hb, hw'⟩ := ih (hw.later hback) h
        exact ⟨.drop hres hwalk, hn.trans hback.named, hb.trans hback.boundaries, hw'⟩

/-- A scope that is solved under pins is solved by one search under those it keeps. -/
theorem resolvePinned_solved {pins kept' : List Pin} {s s' : Search}
    (h : resolvePinned R L it forced depth reqs pins [] s = (.ok, s', kept')) :
    SolvedOnce R ⟨forced, kept'⟩ depth reqs s s' ∧
      ∀ e s₁ found, attemptReqs R ⟨forced, pins⟩ depth (L.named (.witness it s.picks)) true reqs s =
          (.err e, s₁, found) →
        ∃ s₂, PinWalk (walkAttempt R L it forced depth reqs) pins [] s₁ kept' s₂ := by
  unfold resolvePinned at h
  rw [List.nil_append] at h
  rcases hres : attemptReqs R ⟨forced, pins⟩ depth (L.named (.witness it s.picks)) true reqs s with
    ⟨verdict, s₁, found⟩
  rw [hres] at h
  cases verdict with
  | stuck => cases h
  | ok =>
    cases h
    refine ⟨?_, fun e s₁ found heq => by cases heq⟩
    unfold attemptReqs at hres
    rcases hsolve : solveReqs R ⟨forced, pins⟩ depth reqs s with ⟨verdict, solved⟩
    rw [hsolve] at hres
    cases verdict with
    | err e => cases hres
    | stuck => cases hres
    | ok =>
      cases hres
      exact ⟨s, solved, rfl, rfl, hsolve, rfl, rfl⟩
  | err e =>
    have hback := attemptReqs_undone hres
    simp only at h
    split at h
    case isTrue => cases h
    case isFalse =>
      rcases hwalked : walkPins R L it forced depth reqs pins [] none s₁ with
        ⟨verdict, s₂, kept₂, witness⟩
      rw [hwalked] at h
      cases verdict with
      | err e => cases h
      | stuck => cases h
      | ok =>
        obtain ⟨hwalk, hn, hb, hw⟩ := walkPins_walk (by rfl) hwalked
        have hn := hn.trans hback.named
        have hb := hb.trans hback.boundaries
        have hresult : kept' = kept₂ ∧ SolvedOnce R ⟨forced, kept₂⟩ depth reqs s s' := by
          cases witness with
          | some w =>
            cases h
            obtain ⟨start, solved, hn₀, hb₀, hrest⟩ := hw
            exact ⟨rfl, start, solved, hn₀.trans hn, hb₀.trans hb, hrest⟩
          | none =>
            simp only [Prod.mk.injEq] at h
            obtain ⟨hok, rfl, rfl⟩ := h
            exact ⟨rfl, s₂, _, hn, hb, Prod.ext hok rfl, rfl, rfl⟩
        obtain ⟨rfl, hsolved⟩ := hresult
        refine ⟨hsolved, fun e s₁ found heq => ?_⟩
        cases heq
        exact ⟨s₂, hwalk⟩

end

/-! ## The pins of a run -/

/-- What a run between two scopes knows of their pins: no scope is pinned before it was
entered, the first scope is entered first, and every name has the versions it is held to. -/
structure Run.Steady (run : Run) : Prop where
  untouched : ∀ (i : ℕ) (scope : Scope), run.scopes[i]? = some scope → scope.cursor = 0 →
    scope.named = ∅ ∧ scope.pins = []
  plain : ∀ (i : ℕ) (scope : Scope), i ≠ 0 → run.scopes[i]? = some scope → ∀ req ∈ scope.reqs, req.plain = true
  entered : run.result.size ≠ 0 ∨ 1 < run.scopes.length →
    ∃ scope, run.scopes[0]? = some scope ∧ 0 < scope.cursor
  named : ∀ (i : ℕ) (scope : Scope), run.scopes[i]? = some scope → Obeys ⟨run.forced, scope.pins⟩ scope.named
  result : ∀ p, run.forced = some p → ∀ (id : PkgId) (node : ResolvedPkg), run.result[id]? = some node →
    node.id.qualified = p.name → node.id.version = p.version

section

variable {R : Resolver} {L : Listing} {it depth : ℕ} {run run' : Run} {scope : Scope}

theorem startRun_steady (R : Resolver) (registry : Registry) (forced : Option Pin)
    (reqs : List Req) : (startRun R registry forced reqs).Steady := by
  have hscope : ∀ i scope, (startRun R registry forced reqs).scopes[i]? = some scope →
      i = 0 ∧ scope = { Scope.fresh [] rootId with reqs := reqs } := by
    intro i scope hi
    rw [startRun, List.getElem?_singleton] at hi
    split at hi
    · rename_i h0
      cases hi
      exact ⟨h0, rfl⟩
    · cases hi
  refine ⟨?_, ?_, ?_, ?_, ?_⟩
  · intro i scope hi _
    obtain ⟨-, rfl⟩ := hscope i scope hi
    exact ⟨rfl, rfl⟩
  · intro i scope hne hi
    exact absurd (hscope i scope hi).1 hne
  · intro h
    rcases h with h | h
    · exact absurd (by simp [startRun]) h
    · simp [startRun] at h
  · intro i scope hi
    obtain ⟨-, rfl⟩ := hscope i scope hi
    exact .empty
  · intro p _ id node h
    simp [startRun] at h

/-- What `resolve_scope` leaves of a scope and of the run around it. -/
theorem resolveScope_steady (h : run.Steady) (hscope : run.scopes[it]? = some scope)
    {run₁ : Run} (hres : resolveScope R L depth run it scope = (.ok, run₁)) :
    ∃ s pins, run₁ = ({ run with budget := R.budget } : Run).absorb it
        { scope.sorted with pins := pins } s ∧
      Obeys ⟨run.forced, pins⟩ s.named ∧
      (scope.cursor = 0 → run.result.size ≠ 0 →
        resolvePinned R L it run.forced depth (Req.canonical (scope.reqs.drop scope.cursor))
          (run.picksOf L) [] (run.beginning R scope) = (.ok, s, pins)) := by
  have hobeys := h.named it scope hscope
  by_cases hfirst : 0 < scope.cursor ∨ run.result.size = 0
  · have heq : resolveScope R L depth run it scope =
        let answer := solveReqs R ⟨run.forced, scope.pins⟩ depth
          (Req.canonical (scope.reqs.drop scope.cursor)) (run.beginning R scope)
        (answer.1, ({ run with budget := R.budget } : Run).absorb it scope.sorted answer.2) :=
      if_pos hfirst
    rw [heq] at hres
    refine ⟨_, scope.pins, (congrArg Prod.snd hres).symm, solveReqs_obeys depth _ hobeys, ?_⟩
    intro hc hsize
    rcases hfirst with hpos | hzero
    · exact absurd hc (Nat.pos_iff_ne_zero.1 hpos)
    · exact absurd hzero hsize
  · have heq : resolveScope R L depth run it scope =
        let answer := resolvePinned R L it run.forced depth
          (Req.canonical (scope.reqs.drop scope.cursor))
          (({ run with budget := R.budget } : Run).picksOf L) scope.pins (run.beginning R scope)
        (answer.1, ({ run with budget := R.budget } : Run).absorb it
          { scope.sorted with pins := answer.2.2 } answer.2.1) :=
      if_neg hfirst
    have hcursor : scope.cursor = 0 := Nat.eq_zero_of_not_pos (not_or.1 hfirst).1
    obtain ⟨hnamed, hpins⟩ := h.untouched it scope hscope hcursor
    rw [heq, hpins] at hres
    rcases hpinned : resolvePinned R L it run.forced depth
      (Req.canonical (scope.reqs.drop scope.cursor))
      (({ run with budget := R.budget } : Run).picksOf L) [] (run.beginning R scope) with
      ⟨verdict, s, pins⟩
    rw [hpinned] at hres
    simp only [Prod.mk.injEq] at hres
    obtain ⟨rfl, hrun⟩ := hres
    refine ⟨s, pins, hrun.symm, (resolvePinned_solved hpinned).1.obeys ?_, fun _ _ => hpinned⟩
    show Obeys ⟨run.forced, pins⟩ scope.named
    rw [hnamed]
    exact .empty

theorem Run.Spreads.forced (h : run.Spreads run') : run'.forced = run.forced := by
  rw [← h.rest]

theorem Run.Spreads.result (h : run.Spreads run') : run'.result = run.result := by
  rw [← h.rest]

/-- What is committed was there, or is held by the scope. -/
theorem mem_commitScope {id : PkgId} {node : ResolvedPkg}
    (h : (run.commitScope L it scope).result[id]? = some node) :
    run.result[id]? = some node ∨ ∃ name : Str, scope.named[name]? = some node := by
  have hfold : ∀ (entries : List (Str × ResolvedPkg)) (t : Table PkgId ResolvedPkg),
      (entries.foldl (fun result entry => result.insertIfNew entry.2.id entry.2) t)[id]? =
        some node → t[id]? = some node ∨ ∃ entry ∈ entries, entry.2 = node := by
    intro entries
    induction entries with
    | nil => exact fun t ht => .inl ht
    | cons entry rest ih =>
      intro t ht
      rcases ih _ ht with hnew | ⟨e, he, hnode⟩
      · rw [Std.ExtTreeMap.getElem?_insertIfNew] at hnew
        split at hnew
        · exact .inr ⟨entry, List.mem_cons_self, Option.some.inj hnew⟩
        · exact .inl hnew
      · exact .inr ⟨e, List.mem_cons_of_mem _ he, hnode⟩
  rcases hfold _ _ h with hold | ⟨entry, hentry, rfl⟩
  · exact .inl hold
  · have hmem := (L.named_perm _ _).mem_iff.1 hentry
    exact .inr ⟨entry.1, (Table.mem_toList_iff _).1 hmem⟩

theorem Run.Steady.solve (hrun : run.Inv R) (h : run.Steady)
    (hscope : run.scopes[it]? = some scope) (hne : scope.cursor ≠ scope.reqs.length)
    (hsolve : solveScope R L depth run it scope = (.ok, run')) : run'.Steady := by
  obtain ⟨past, run₁, scope', -, hr, hres, hhere, rfl⟩ := solveScope_ok hrun hscope hsolve
  obtain ⟨s, pins, rfl, hobeys, -⟩ := resolveScope_steady h hscope hres
  have hlt := (List.getElem?_eq_some_iff.1 hscope).1
  have hsame : { scope.sorted with pins := pins, named := s.named } = scope' := by
    rw [show (({ run with budget := R.budget } : Run).absorb it
      { scope.sorted with pins := pins } s).scopes = run.scopes.set it
        { scope.sorted with pins := pins, named := s.named } from rfl,
      List.getElem?_set_self hlt] at hhere
    exact Option.some.inj hhere
  let run₁ := ({ run with budget := R.budget } : Run).absorb it { scope.sorted with pins := pins } s
  let base := run₁.commitScope L it scope'
  obtain ⟨hspread, -⟩ := Run.foldl_processBoundary_spec it run₁.boundaries base
  have hforced : (base.processBoundaries it).forced = run.forced := hspread.forced
  have hresult : (base.processBoundaries it).result = base.result := hspread.result
  have hother : ∀ i, i ≠ it → base.scopes[i]? = run.scopes[i]? := by
    intro i hi
    show (run.scopes.set it _)[i]? = _
    rw [List.getElem?_set_ne (Ne.symm hi)]
  have hcursor : 0 < scope'.cursor := by
    rw [hr.cursor, hr.reqs.length_eq]
    exact lt_of_le_of_lt (Nat.zero_le _) (lt_of_le_of_ne (hrun.scopes it scope hscope).cursor hne)
  have hpinned : scope'.pins = pins := by rw [← hsame]
  have hheld : scope'.named = s.named := by rw [← hsame]
  -- the scopes before the boundaries were delivered
  have hbase : ∀ i scope₁, base.scopes[i]? = some scope₁ →
      (scope₁.cursor = 0 → scope₁.named = ∅ ∧ scope₁.pins = []) ∧
      Obeys ⟨run.forced, scope₁.pins⟩ scope₁.named ∧
      (i ≠ 0 → ∀ req ∈ scope₁.reqs, req.plain = true) := by
    intro i scope₁ hi
    by_cases hit : i = it
    · subst hit
      have hs₁ : scope' = scope₁ := Option.some.inj (hhere.symm.trans hi)
      subst hs₁
      refine ⟨fun h0 => absurd h0 (Nat.pos_iff_ne_zero.1 hcursor), ?_, fun hi0 req hreq => ?_⟩
      · rw [hpinned, hheld]
        exact hobeys
      · exact h.plain i scope hi0 hscope req (hr.reqs.mem_iff.1 hreq)
    · rw [hother i hit] at hi
      exact ⟨h.untouched i scope₁ hi, h.named i scope₁ hi, fun hi0 => h.plain i scope₁ hi0 hi⟩
  refine ⟨?_, ?_, ?_, ?_, ?_⟩
  · intro i scope₂ hi h0
    cases hold : base.scopes[i]? with
    | none =>
      have hfresh := hspread.fresh i scope₂ hi hold
      exact ⟨hfresh.2.1, hfresh.2.2.1⟩
    | some scope₁ =>
      obtain ⟨scope₂', hi', hg⟩ := hspread.old i scope₁ hold
      cases hi.symm.trans hi'
      obtain ⟨hn, hp⟩ := (hbase i scope₁ hold).1 (hg.cursor ▸ h0)
      exact ⟨hg.named.trans hn, hg.pins.trans hp⟩
  · intro i scope₂ hi0 hi req hreq
    rcases hspread.plain i scope₂ hi req hreq with hplain | ⟨scope₁, hold, hreq₁⟩
    · exact hplain
    · exact (hbase i scope₁ hold).2.2 hi0 req hreq₁
  · intro _
    have hfirst : ∃ scope₁, base.scopes[0]? = some scope₁ ∧ 0 < scope₁.cursor := by
      by_cases hit : 0 = it
      · subst hit
        exact ⟨scope', hhere, hcursor⟩
      · rw [hother 0 hit]
        exact h.entered (.inr (by omega))
    obtain ⟨scope₁, hold, hpos⟩ := hfirst
    obtain ⟨scope₂, hi, hg⟩ := hspread.old 0 scope₁ hold
    exact ⟨scope₂, hi, hg.cursor ▸ hpos⟩
  · intro i scope₂ hi
    rw [hforced]
    cases hold : base.scopes[i]? with
    | none =>
      rw [(hspread.fresh i scope₂ hi hold).2.1]
      exact .empty
    | some scope₁ =>
      obtain ⟨scope₂', hi', hg⟩ := hspread.old i scope₁ hold
      cases hi.symm.trans hi'
      rw [hg.named, hg.pins]
      exact (hbase i scope₁ hold).2.1
  · intro p hp id node hnode hname
    rw [hforced] at hp
    rw [hresult] at hnode
    rcases mem_commitScope hnode with hold | ⟨name, hname'⟩
    · exact h.result p hp id node hold hname
    · have hkey : node.id.qualified = name := hr.inv.name name node hname'
      rw [hheld] at hname'
      refine (hobeys name node hname' p.version false ?_).2
      unfold Holds.find findForced
      rw [hp]
      simp [← hname, hkey]

theorem Reached.steady {registry : Registry} {forced : Option Pin} {reqs : List Req}
    (h : Reached R L depth (startRun R registry forced reqs) it run) :
    run.Inv R ∧ run.Steady := by
  induction h with
  | start => exact ⟨startRun_inv R registry forced reqs, startRun_steady R registry forced reqs⟩
  | skip _ _ _ ih => exact ih
  | again _ _ ih => exact ih
  | solve _ hscope hne hsolve ih =>
    have hinv := solveScope_sound L depth ih.1 hscope (congrArg Prod.fst hsolve)
    rw [hsolve] at hinv
    exact ⟨hinv, ih.2.solve ih.1 hscope hne hsolve⟩

/-- A pin is a pick of the run. -/
theorem mem_picksOf {pin : Pin} (h : pin ∈ run.picksOf L) :
    ∃ (id : PkgId) (pick : ResolvedPkg), run.result[id]? = some pick ∧
      pin = ⟨pick.id.qualified, pick.id.version⟩ := by
  obtain ⟨pick, hpick, rfl⟩ := List.mem_map.1 h
  obtain ⟨entry, hentry, rfl⟩ := List.mem_map.1 ((List.perm_insertionSort _ _).mem_iff.1 hpick)
  have hmem := (L.result_perm _ _).mem_iff.1 hentry
  exact ⟨entry.1, entry.2, (Table.mem_toList_iff _).1 hmem, rfl⟩

/-- What the walk over the pins leaves in a scope that was entered for the first time; the
attempt under all pins ended in `failed`. -/
structure PinnedGreedily (R : Resolver) (L : Listing) (depth : ℕ) (run : Run) (it : ℕ)
    (scope : Scope) (failed : Search) (run' : Run) (scope' : Scope) : Prop where
  /-- The pins are the picks, by priority. -/
  order : ∃ picks : List ResolvedPkg, picks.Perm (run.result.toList.map Prod.snd) ∧
    picks.Pairwise (fun a b => a.priority ≤ b.priority) ∧
    run.picksOf L = picks.map fun pick => ⟨pick.id.qualified, pick.id.version⟩
  /-- A pin is kept if the attempt under it and those kept before succeeds. -/
  walk : ∃ s, PinWalk (walkAttempt R L it run.forced depth (Req.canonical scope.reqs))
    (run.picksOf L) [] failed scope'.pins s
  /-- Names and boundaries are those of one search under the kept pins. -/
  assignment : ∃ start solved, start.named = ∅ ∧ start.boundaries = [] ∧
    solveReqs R ⟨run.forced, scope'.pins⟩ depth (Req.canonical scope.reqs) start = (.ok, solved) ∧
    scope'.named = solved.named ∧ run'.boundaries = solved.boundaries
  satisfied : ∀ req ∈ scope.reqs,
    ∃ pkg, scope'.named[req.qualified]? = some pkg ∧ Meets run'.met pkg req
  complete : ∀ (name : Str) (node : ResolvedPkg), scope'.named[name]? = some node →
    ∀ dep ∈ node.deps, Answered ⟨scope'.reqs, []⟩ (run'.search scope') node dep
      (R.classifyDep run'.registry node dep)
  agrees : ∀ pin ∈ scope'.pins, ∀ node : ResolvedPkg, scope'.named[pin.name]? = some node →
    node.id.version = pin.version

/-- The first time a scope is entered, and all pins together have failed, the walk keeps
the pins greedily and the scope gets one assignment that goes with all of them. -/
theorem pin_walk_greedy {registry : Registry} {forced : Option Pin} {reqs : List Req}
    (hreached : Reached R L depth (startRun R registry forced reqs) it run)
    (hscope : run.scopes[it]? = some scope) (hfirst : scope.cursor = 0)
    (hpicks : run.result.size ≠ 0) {e : Err} {failed : Search} {found : Option Witness}
    (hfailed : attemptReqs R ⟨run.forced, run.picksOf L⟩ depth (L.named (.witness it run.picks))
      true (Req.canonical scope.reqs) (run.beginning R scope) = (.err e, failed, found))
    (hok : (resolveScope R L depth run it scope).1 = .ok) :
    ∃ scope', (resolveScope R L depth run it scope).2.scopes[it]? = some scope' ∧
      PinnedGreedily R L depth run it scope failed (resolveScope R L depth run it scope).2
        scope' := by
  obtain ⟨hrun, hsteady⟩ := hreached.steady
  obtain ⟨hnamed, -⟩ := hsteady.untouched it scope hscope hfirst
  obtain ⟨scope', hr⟩ := resolveScope_sound L depth hrun (hrun.scopes it scope hscope)
    (Search.inv_empty (c := ⟨scope.reqs, []⟩) hnamed hrun.boundaries) hok
  rcases hres : resolveScope R L depth run it scope with ⟨verdict, run'⟩
  rw [hres] at hok hr
  cases hok
  obtain ⟨s, pins, hrun', hobeys, hpinned⟩ := resolveScope_steady hsteady hscope hres
  have hlt := (List.getElem?_eq_some_iff.1 hscope).1
  have hhere : run'.scopes[it]? = some scope' := by rw [hr.scopes, List.getElem?_set_self hlt]
  have hsame : { scope.sorted with pins := pins, named := s.named } = scope' := by
    rw [hrun', show (({ run with budget := R.budget } : Run).absorb it
      { scope.sorted with pins := pins } s).scopes = run.scopes.set it
        { scope.sorted with pins := pins, named := s.named } from rfl,
      List.getElem?_set_self hlt] at hhere
    exact Option.some.inj hhere
  have hkept : scope'.pins = pins := by rw [← hsame]
  have hheld : scope'.named = s.named := by rw [← hsame]
  have hsolved := hpinned hfirst hpicks
  rw [hfirst, List.drop_zero] at hsolved
  obtain ⟨⟨start, solved, hn, hb, hsolve, hn', hb'⟩, hwalk⟩ := resolvePinned_solved hsolved
  refine ⟨scope', hhere, ?_, ?_, ?_, ?_, ?_, ?_⟩
  · refine ⟨_, ?_, ?_, rfl⟩
    · exact (List.perm_insertionSort _ _).trans ((L.result_perm _ _).map Prod.snd)
    · exact List.pairwise_insertionSort _ _
  · rw [hkept]
    exact hwalk e failed found hfailed
  · refine ⟨start, solved, hn.trans hnamed, hb.trans hrun.boundaries, hkept ▸ hsolve,
      hheld.trans hn', ?_⟩
    rw [hrun']
    exact hb'
  · intro req hreq
    refine hr.answered req (hr.reqs.mem_iff.2 hreq) ?_
    -- the first scope was entered before there were picks
    obtain ⟨scope₀, hscope₀, hpos⟩ := hsteady.entered (.inl hpicks)
    refine hsteady.plain it scope (fun h0 => ?_) hscope req hreq
    rw [h0, hscope₀] at hscope
    cases hscope
    omega
  · intro name node held dep hdep
    have hfinished : Finished R ⟨scope'.reqs, []⟩ (run'.search scope') name := by
      refine hr.inv.finished name node held ?_
      rw [show (run'.search scope').visited = run'.visited from rfl, hr.visited, hrun.visited]
      exact Finset.notMem_empty name
    obtain ⟨held', hanswered, -⟩ := hfinished
    cases held.symm.trans held'
    exact hanswered dep hdep
  · intro pin hpin node held
    rw [hkept] at hpin
    rw [hheld] at held
    refine hobeys.pin hpin (fun p hp hname => ?_) held
    obtain ⟨s₂, hwalked⟩ := hwalk e failed found hfailed
    have hmem := (hwalked.mem pin hpin).resolve_left List.not_mem_nil
    obtain ⟨id, pick, hpick, rfl⟩ := mem_picksOf hmem
    exact hsteady.result p hp id pick hpick hname.symm

end

/-- The package b of the project, which takes an x that is not the newest. -/
def olderX : Resolver :=
  plainResolver
    (Index.empty.add (str "x")
      ⟨[release "x" ⟨1, 0, 0⟩ [] [], release "x" ⟨2, 0, 0⟩ [] []], by simp [release, Version.le]⟩
      (by simp [release]))
    [manifest "b" [.ofIndex "x" (major 1) .package] []]

/-- The run of a root that takes any x, and is built with b. -/
def olderXRun : Run :=
  startRun olderX (Registry.empty.insert
    (rootPkg [.ofIndex "x" anyVersion .package, .ofFile "b" .build])) none [rootRequest (str "r")]

/-- The scope of b keeps the pin of the root and drops that of the newer x. -/
theorem pin_walk_greedy_olderX : ∃ run scope failed scope',
    Reached olderX .byKey 20 olderXRun 1 run ∧ run.scopes[1]? = some scope ∧
    PinnedGreedily olderX .byKey 20 run 1 scope failed
      (resolveScope olderX .byKey 20 run 1 scope).2 scope' ∧
    (resolveScope olderX .byKey 20 run 1 scope).2.scopes[1]? = some scope' ∧
    scope'.pins = [⟨str "r", ⟨1, 0, 0⟩⟩] := by
  have hstate : (loopState olderX .byKey 20 1 0 olderXRun).bind (fun state =>
      (state.2.scopes[1]?).map fun scope => ((state.1, scope.cursor, state.2.result.size),
        (attemptReqs olderX ⟨state.2.forced, state.2.picksOf .byKey⟩ 20
          (Listing.byKey.named (.witness 1 state.2.picks)) true (Req.canonical scope.reqs)
          (state.2.beginning olderX scope)).1,
        (resolveScope olderX .byKey 20 state.2 1 scope).1,
        ((resolveScope olderX .byKey 20 state.2 1 scope).2.scopes[1]?).map Scope.pins)) =
      some ((1, 0, 2), .err (.unsatisfiable .conflict (str "x") (some (major 1)) (str "b") ⟨1, 0, 0⟩
        ⟨2, 0, 0⟩), .ok, some [⟨str "r", ⟨1, 0, 0⟩⟩]) := by
    decide +kernel
  obtain ⟨⟨it, run⟩, hrun, hlook⟩ := Option.bind_eq_some_iff.1 hstate
  obtain ⟨scope, hscope, heq⟩ := Option.map_eq_some_iff.1 hlook
  simp only [Prod.mk.injEq] at heq
  obtain ⟨⟨rfl, hcursor, hsize⟩, hfailed, hok, hpins⟩ := heq
  have hreached := Reached.start.of_loopState hrun
  rcases hattempt : attemptReqs olderX ⟨run.forced, run.picksOf .byKey⟩ 20
      (Listing.byKey.named (.witness 1 run.picks)) true (Req.canonical scope.reqs)
      (run.beginning olderX scope) with ⟨verdict, failed, found⟩
  rw [hattempt] at hfailed
  obtain rfl := hfailed
  obtain ⟨scope', hscope', hgreedy⟩ := pin_walk_greedy hreached hscope hcursor
    (by rw [hsize]; decide) hattempt hok
  rw [hscope'] at hpins
  exact ⟨run, scope, failed, scope', hreached, hscope, hgreedy, hscope', by simpa using hpins⟩

end Spn.Resolve
