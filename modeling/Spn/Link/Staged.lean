import Spn.Dag.Types
import Spn.Link.Closure
import Spn.Strings

/-! # Where artifacts are staged

The end of `add_target_build_targets` in `unit/target.c`: each executable of a plan has a
place in the output directory, and the shared libraries it needs when it runs stand beside
it. The places of libraries are claimed, and a place is not claimed by two of them.
-/
namespace Spn.Link

/-- `spn_os_t`. -/
inductive Os
  | none | windows | linux | macos | wasi | freestanding
  deriving DecidableEq, Repr

/-- `spn_triple_exe_file_name`. -/
def exeFileName (os : Os) (name : Str) : Str :=
  match os with
  | .windows => name ++ str ".exe"
  | .wasi => name ++ str ".wasm"
  | .freestanding => name ++ str ".elf"
  | .linux | .macos | .none => name

/-- `spn_triple_lib_file_name`, of a shared library. -/
def sharedFileName (os : Os) (name : Str) : Str :=
  match os with
  | .windows => name ++ str ".dll"
  | .macos => str "lib" ++ name ++ str ".dylib"
  | .linux | .wasi | .freestanding | .none => str "lib" ++ name ++ str ".so"

/-- What staging reads of `spn_build_unit_t`. -/
structure BuildUnit where
  root : Path
  os : Os

/-- What staging reads of the units besides their links: the build of a package, the
directory of its libraries, and the names of its targets. -/
structure Naming (P T : Type) where
  build : P → BuildUnit
  lib : P → Path
  name : T → Str

/-- `spn_stage_entry_t`. -/
structure StageEntry (T : Type) where
  target : T
  path : Path
  deriving DecidableEq

/-- `spn_stage_closure_t`. -/
structure StageClosure (T : Type) where
  exe : StageEntry T
  libs : List (StageEntry T)
  deriving DecidableEq

/-- What an executable puts into the output directory: itself and its libraries. -/
def StageClosure.entries {T : Type} (closure : StageClosure T) : List (StageEntry T) :=
  closure.exe :: closure.libs

/-- `SPN_ERR_TARGET_RESERVED` and `SPN_ERR_TARGET_COLLISION`. -/
inductive StageErr (T : Type)
  | reserved (target : T)
  | collision (exe owner lib : T) (name : Str)
  deriving DecidableEq

/-- `spn_build_plan_t`: the targets of the root package by their maps, and which of them the
selection passes. -/
structure BuildPlan (T : Type) where
  libs : List T
  exes : List T
  scripts : List T
  tests : List T
  examples : List T
  passes : T → Bool

/-- `target->kind == SPN_CC_OUTPUT_EXE`, by `set_target_kind`. -/
def TargetKind.outputExe : TargetKind → Bool
  | .exe | .script | .test | .exampleExe => true
  | .lib | .configureMetaprogram | .buildMetaprogram => false

/-- `exe_name_reserved`. -/
def exeNameReserved (name : Str) : Bool :=
  name = str "store" ∨ name = str ".spn" ∨ name = str "test" ∨ name = str "example"

namespace Units

variable {P T : Type} (u : Units P T) (n : Naming P T)

/-- `spn_target_unit_staged_path`. -/
def stagedPath (target : T) : Path :=
  let build := n.build (u.target target).pkg
  let fileName := exeFileName build.os (n.name target)
  match (u.target target).kind with
  | .exe | .script => build.root.join fileName
  | .test => (build.root.join (str "test")).join fileName
  | .exampleExe => (build.root.join (str "example")).join fileName
  | .lib | .configureMetaprogram | .buildMetaprogram => ⟨.none, []⟩

/-- `paths.output` of a shared library, by `ensure_target`. -/
def sharedOutput (target : T) : Path :=
  let pkg := (u.target target).pkg
  (n.lib pkg).join (sharedFileName (n.build pkg).os (n.name target))

/-- The place of a library beside an executable. -/
def libPath (exe lib : T) : Path :=
  (u.stagedPath n exe).parent.join (Dag.Graph.baseName (u.sharedOutput n lib).sub)

/-- `add_plan_targets`, on the roots so far. -/
def addPlanTargets [DecidableEq T] (passes : T → Bool) (roots : List T) :
    List T → Except (StageErr T) (List T)
  | [] => .ok roots
  | target :: targets =>
    if !passes target then addPlanTargets passes roots targets
    else if ((u.target target).kind = .exe ∨ (u.target target).kind = .script) ∧
        exeNameReserved (n.name target) then .error (.reserved target)
    else addPlanTargets passes (if target ∈ roots then roots else roots ++ [target]) targets

/-- The part of `add_plan_root_targets` that is about one plan. -/
def addPlanRootTargets [DecidableEq T] (plan : BuildPlan T) : Except (StageErr T) (List T) := do
  let roots ← u.addPlanTargets n plan.passes [] plan.libs
  let roots ← u.addPlanTargets n plan.passes roots plan.exes
  let roots ← u.addPlanTargets n plan.passes roots plan.scripts
  let roots ← u.addPlanTargets n plan.passes roots plan.tests
  u.addPlanTargets n plan.passes roots plan.examples

/-- The loop over the libraries of an executable, on what is claimed, newest first. -/
def stageLibs [DecidableEq T] (exe : T) (claimed : List (Path × T)) :
    List T → Except (StageErr T) (List (StageEntry T) × List (Path × T))
  | [] => .ok ([], claimed)
  | lib :: libs =>
    let name := Dag.Graph.baseName (u.sharedOutput n lib).sub
    let path := (u.stagedPath n exe).parent.join name
    match claimed.lookup path with
    | some owner =>
      if owner ≠ lib then .error (.collision exe owner lib name)
      else (stageLibs exe ((path, lib) :: claimed) libs).map fun x => (⟨lib, path⟩ :: x.1, x.2)
    | none => (stageLibs exe ((path, lib) :: claimed) libs).map fun x => (⟨lib, path⟩ :: x.1, x.2)

variable [DecidableEq P] [DecidableEq T] [Fintype P] [Fintype T]

/-- The loop over the roots of a plan. -/
def stageRoots (claimed : List (Path × T)) : List T → Except (StageErr T) (List (StageClosure T))
  | [] => .ok []
  | root :: roots =>
    if !(u.target root).kind.outputExe then stageRoots claimed roots
    else
      match u.stageLibs n root claimed (u.targetRuntimeLibs root) with
      | .error e => .error e
      | .ok (libs, claimed) =>
        (stageRoots claimed roots).map (⟨⟨root, u.stagedPath n root⟩, libs⟩ :: ·)

/-- `add_target_build_targets`: the closures of each plan. What happens between the roots and
the closures adds units and can fail, and these are the units after it. -/
def addTargetBuildTargets (plans : List (BuildPlan T)) :
    Except (StageErr T) (List (List (StageClosure T))) := do
  let roots ← plans.mapM (u.addPlanRootTargets n)
  roots.mapM (u.stageRoots n [])

end Units

/-! ## The places of executables -/

/-- What stands before the file name of an executable of this kind. -/
def TargetKind.shelf : TargetKind → Str
  | .test => str "test/"
  | .exampleExe => str "example/"
  | .lib | .exe | .script | .configureMetaprogram | .buildMetaprogram => []

theorem slash_not_mem_exeFileName {os : Os} {name : Str} (h : slash ∉ name) :
    slash ∉ exeFileName os name := by
  cases os with
  | none | linux | macos => exact h
  | windows | wasi | freestanding =>
    exact fun hmem => (List.mem_append.1 hmem).elim h (by decide)

theorem exeFileName_injective (os : Os) : Function.Injective (exeFileName os) := by
  intro a b h
  cases os with
  | none | linux | macos => exact h
  | windows | wasi | freestanding => exact List.append_cancel_right h

theorem shelf_append_inj {k k' : TargetKind} {a b : Str} (ha : slash ∉ a) (hb : slash ∉ b)
    (h : k.shelf ++ a = k'.shelf ++ b) : k.shelf = k'.shelf ∧ a = b := by
  have hbare : ∀ {s t u : Str}, slash ∉ s → s ≠ t ++ slash :: u := fun hs heq =>
    hs (heq ▸ List.mem_append_right _ List.mem_cons_self)
  have hcases : ∀ k : TargetKind, k.shelf = [] ∨ k.shelf = str "test" ++ [slash] ∨
      k.shelf = str "example" ++ [slash] := by
    intro k
    cases k <;> decide
  rcases hcases k with hk | hk | hk <;> rcases hcases k' with hk' | hk' | hk' <;>
    rw [hk, hk'] at h ⊢
  · exact ⟨rfl, h⟩
  · exact absurd (h.trans (List.append_assoc _ _ _)) (hbare ha)
  · exact absurd (h.trans (List.append_assoc _ _ _)) (hbare ha)
  · exact absurd (h.symm.trans (List.append_assoc _ _ _)) (hbare hb)
  · exact ⟨rfl, List.append_cancel_left h⟩
  · cases h
  · exact absurd (h.symm.trans (List.append_assoc _ _ _)) (hbare hb)
  · cases h
  · exact ⟨rfl, List.append_cancel_left h⟩

/-- Two executables of one package share a place where they have one name and stand in one
directory: a binary and a script of one name. -/
theorem Units.stagedPath_eq_iff {P T : Type} {u : Units P T} {n : Naming P T} {a b : T}
    (hpkg : (u.target a).pkg = (u.target b).pkg) (ha : slash ∉ n.name a) (hb : slash ∉ n.name b)
    (hexe : (u.target a).kind.outputExe = true) (hexe' : (u.target b).kind.outputExe = true) :
    u.stagedPath n a = u.stagedPath n b ↔
      (u.target a).kind.shelf = (u.target b).kind.shelf ∧ n.name a = n.name b := by
  have hplace : ∀ t, (u.target t).kind.outputExe = true → u.stagedPath n t =
      (n.build (u.target t).pkg).root.join
        ((u.target t).kind.shelf ++ exeFileName (n.build (u.target t).pkg).os (n.name t)) := by
    intro t ht
    have hshelf : ∀ (d : Path) (dir file : Str), dir ≠ [] →
        (d.join dir).join file = d.join (dir ++ slash :: file) := by
      intro d dir file hdir
      by_cases hd : d.sub = []
      · simp [Path.join, hd, hdir]
      · simp [Path.join, hd]
    rw [stagedPath]
    cases hkind : (u.target t).kind with
    | exe | script => rfl
    | test | exampleExe => exact hshelf _ _ _ (by decide)
    | lib | configureMetaprogram | buildMetaprogram =>
      rw [hkind] at ht
      cases ht
  rw [hplace a hexe, hplace b hexe', hpkg, (Path.join_injective _).eq_iff]
  constructor
  · intro h
    obtain ⟨hshelf, hname⟩ := shelf_append_inj (slash_not_mem_exeFileName ha)
      (slash_not_mem_exeFileName hb) h
    exact ⟨hshelf, exeFileName_injective _ hname⟩
  · rintro ⟨hshelf, hname⟩
    rw [hshelf, hname]

/-! ## Where the code keeps artifacts apart -/

/-- No two artifacts have one place. -/
def Distinct {T : Type} (closures : List (StageClosure T)) : Prop :=
  ∀ e ∈ closures.flatMap StageClosure.entries, ∀ e' ∈ closures.flatMap StageClosure.entries,
    e.path = e'.path → e.target = e'.target

/-- The targets that a plan selects. -/
def BuildPlan.selected {T : Type} (plan : BuildPlan T) : List T :=
  (plan.libs ++ plan.exes ++ plan.scripts ++ plan.tests ++ plan.examples).filter plan.passes

namespace Units

section

variable {P T : Type} {u : Units P T} {n : Naming P T}

theorem mem_addPlanTargets [DecidableEq T] {passes : T → Bool} {roots targets roots' : List T}
    (h : u.addPlanTargets n passes roots targets = .ok roots') {t : T} :
    t ∈ roots' ↔ t ∈ roots ∨ t ∈ targets.filter passes := by
  induction targets generalizing roots with
  | nil =>
    obtain rfl := Except.ok.inj h
    simp
  | cons target targets ih =>
    rw [addPlanTargets] at h
    split at h
    · rename_i hpasses
      rw [ih h, List.filter_cons_of_neg (by simpa using hpasses)]
    · rename_i hpasses
      split at h
      · cases h
      · rw [ih h, List.filter_cons_of_pos (by simpa using hpasses), List.mem_cons]
        split
        · rename_i hmem
          grind
        · grind

theorem bind_eq_ok {ε α β : Type} {x : Except ε α} {f : α → Except ε β} {b : β} :
    (x >>= f) = .ok b ↔ ∃ a, x = .ok a ∧ f a = .ok b := by
  cases x with
  | error e => exact ⟨nofun, nofun⟩
  | ok a => exact ⟨fun h => ⟨a, rfl, h⟩, fun ⟨_, ha, h⟩ => Except.ok.inj ha ▸ h⟩

theorem map_eq_ok {ε α β : Type} {x : Except ε α} {f : α → β} {b : β} :
    x.map f = .ok b ↔ ∃ a, x = .ok a ∧ f a = b := by
  cases x with
  | error e => exact ⟨nofun, nofun⟩
  | ok a => simp [Except.map]

theorem forall₂_of_mapM {ε α β : Type} {f : α → Except ε β} {xs : List α} {ys : List β}
    (h : xs.mapM f = .ok ys) : List.Forall₂ (fun x y => f x = .ok y) xs ys := by
  induction xs generalizing ys with
  | nil =>
    obtain rfl := Except.ok.inj h
    exact .nil
  | cons x xs ih =>
    rw [List.mapM_cons, bind_eq_ok] at h
    obtain ⟨y, hy, h⟩ := h
    obtain ⟨ys', hys, h⟩ := bind_eq_ok.1 h
    obtain rfl := Except.ok.inj h
    exact .cons hy (ih hys)

theorem mem_addPlanRootTargets [DecidableEq T] {plan : BuildPlan T} {roots : List T}
    (h : u.addPlanRootTargets n plan = .ok roots) {t : T} : t ∈ roots ↔ t ∈ plan.selected := by
  obtain ⟨libs, hlibs, h⟩ := bind_eq_ok.1 h
  obtain ⟨exes, hexes, h⟩ := bind_eq_ok.1 h
  obtain ⟨scripts, hscripts, h⟩ := bind_eq_ok.1 h
  obtain ⟨tests, htests, h⟩ := bind_eq_ok.1 h
  rw [mem_addPlanTargets h, mem_addPlanTargets htests, mem_addPlanTargets hscripts,
    mem_addPlanTargets hexes, mem_addPlanTargets hlibs]
  simp only [BuildPlan.selected, List.filter_append, List.mem_append, List.not_mem_nil, false_or]

/-- The claims know the targets of the entries. -/
def Owned (claimed : List (Path × T)) (entries : List (StageEntry T)) : Prop :=
  ∀ e ∈ entries, claimed.lookup e.path = some e.target

theorem Owned.claim {claimed : List (Path × T)} {entries : List (StageEntry T)} {path : Path}
    {lib : T} (h : Owned claimed entries)
    (hfree : ∀ owner, claimed.lookup path = some owner → owner = lib) :
    Owned ((path, lib) :: claimed) (entries ++ [⟨lib, path⟩]) := by
  intro e he
  rw [List.lookup_cons]
  by_cases hpath : e.path = path
  · rw [beq_iff_eq.2 hpath]
    rcases List.mem_append.1 he with he | he
    · rw [hfree e.target (hpath ▸ h e he)]
    · rw [List.mem_singleton.1 he]
  · rw [beq_eq_false_iff_ne.2 hpath]
    rcases List.mem_append.1 he with he | he
    · exact h e he
    · exact absurd (congrArg StageEntry.path (List.mem_singleton.1 he)) hpath

/-- One claim: the place was free, or the library's own. -/
theorem stageLibs_cons [DecidableEq T] {exe lib : T} {claimed claimed' : List (Path × T)}
    {libs : List T} {staged : List (StageEntry T)}
    (h : u.stageLibs n exe claimed (lib :: libs) = .ok (staged, claimed')) :
    (∀ owner, claimed.lookup (u.libPath n exe lib) = some owner → owner = lib) ∧
      ∃ rest, staged = ⟨lib, u.libPath n exe lib⟩ :: rest ∧
        u.stageLibs n exe ((u.libPath n exe lib, lib) :: claimed) libs = .ok (rest, claimed') := by
  rw [stageLibs] at h
  split at h
  · rename_i owner howner
    split at h
    · cases h
    · rename_i heq
      obtain ⟨⟨rest, claims⟩, hrest, h⟩ := map_eq_ok.1 h
      cases h
      refine ⟨fun owner' howner' => ?_, rest, rfl, hrest⟩
      rw [libPath, howner] at howner'
      exact Option.some.inj howner' ▸ not_not.1 heq
  · rename_i hfree
    obtain ⟨⟨rest, claims⟩, hrest, h⟩ := map_eq_ok.1 h
    cases h
    exact ⟨fun owner' howner' => (nomatch hfree.symm.trans howner'), rest, rfl, hrest⟩

theorem stageLibs_ok [DecidableEq T] {exe : T} {claimed claimed' : List (Path × T)} {libs : List T}
    {staged entries : List (StageEntry T)}
    (h : u.stageLibs n exe claimed libs = .ok (staged, claimed')) (howned : Owned claimed entries) :
    staged = libs.map (fun lib => ⟨lib, u.libPath n exe lib⟩) ∧
      Owned claimed' (entries ++ staged) := by
  induction libs generalizing claimed staged entries with
  | nil =>
    cases Except.ok.inj h
    exact ⟨rfl, by rwa [List.append_nil]⟩
  | cons lib libs ih =>
    obtain ⟨hfree, rest, rfl, hrest⟩ := stageLibs_cons h
    obtain ⟨hmap, hall⟩ := ih hrest (howned.claim hfree)
    refine ⟨by rw [hmap, List.map_cons], ?_⟩
    rwa [List.append_assoc] at hall

/-- The executables that a plan stages. -/
def Executable (plan : BuildPlan T) (t : T) : Prop :=
  t ∈ plan.selected ∧ (u.target t).kind.outputExe = true

variable [DecidableEq P] [DecidableEq T] [Fintype P] [Fintype T]

/-- What is staged for an executable. -/
def closureOf (u : Units P T) (n : Naming P T) (root : T) : StageClosure T :=
  ⟨⟨root, u.stagedPath n root⟩,
    (u.targetRuntimeLibs root).map fun lib => ⟨lib, u.libPath n root lib⟩⟩

theorem stageRoots_ok {claimed : List (Path × T)} {roots : List T} {entries : List (StageEntry T)}
    {closures : List (StageClosure T)} (h : u.stageRoots n claimed roots = .ok closures)
    (howned : Owned claimed entries) :
    closures = (roots.filter fun root => (u.target root).kind.outputExe).map (u.closureOf n) ∧
      ∃ claimed', Owned claimed' (entries ++ closures.flatMap StageClosure.libs) := by
  induction roots generalizing claimed entries closures with
  | nil =>
    obtain rfl := Except.ok.inj h
    exact ⟨rfl, claimed, by rwa [List.flatMap_nil, List.append_nil]⟩
  | cons root roots ih =>
    rw [stageRoots] at h
    split at h
    · rename_i hkind
      rw [List.filter_cons_of_neg (by simpa using hkind)]
      exact ih h howned
    · rename_i hkind
      rw [List.filter_cons_of_pos (by simpa using hkind)]
      split at h
      · cases h
      · rename_i libs claimed' hlibs
        obtain ⟨rest, hrest, rfl⟩ := map_eq_ok.1 h
        obtain ⟨rfl, hclaimed⟩ := stageLibs_ok hlibs howned
        obtain ⟨hmap, claims, hall⟩ := ih hrest hclaimed
        refine ⟨by rw [List.map_cons, ← hmap]; rfl, claims, ?_⟩
        rwa [List.append_assoc] at hall

/-- Nothing of the plan has the place of one of its executables. -/
def Apart (u : Units P T) (n : Naming P T) (plan : BuildPlan T) : Prop :=
  (∀ a b, u.Executable plan a → u.Executable plan b → u.stagedPath n a = u.stagedPath n b → a = b) ∧
    ∀ a b, u.Executable plan a → u.Executable plan b → ∀ lib ∈ u.targetRuntimeLibs b,
      u.stagedPath n a = u.libPath n b lib → a = lib

theorem mem_entries_closureOf {root : T} {e : StageEntry T} : e ∈ (u.closureOf n root).entries ↔
    e = ⟨root, u.stagedPath n root⟩ ∨
      ∃ lib ∈ u.targetRuntimeLibs root, e = ⟨lib, u.libPath n root lib⟩ := by
  rw [StageClosure.entries, List.mem_cons, closureOf, List.mem_map]
  exact or_congr_right ⟨fun ⟨lib, hlib, h⟩ => ⟨lib, hlib, h.symm⟩,
    fun ⟨lib, hlib, h⟩ => ⟨lib, hlib, h.symm⟩⟩

theorem distinct_iff_apart {plan : BuildPlan T} {roots : List T} {closures : List (StageClosure T)}
    (hroots : u.addPlanRootTargets n plan = .ok roots)
    (h : u.stageRoots n [] roots = .ok closures) : Distinct closures ↔ u.Apart n plan := by
  have hnone : Owned ([] : List (Path × T)) [] := List.forall_mem_nil _
  obtain ⟨hmap, claims, howned⟩ := stageRoots_ok h hnone
  have hexe : ∀ t, t ∈ roots.filter (fun root => (u.target root).kind.outputExe) ↔
      u.Executable plan t := fun t => by
    rw [List.mem_filter, mem_addPlanRootTargets hroots, Executable]
  have hmem : ∀ {t e}, u.Executable plan t → e ∈ (u.closureOf n t).entries →
      e ∈ closures.flatMap StageClosure.entries := fun ht he => by
    rw [hmap]
    exact List.mem_flatMap.2 ⟨_, List.mem_map_of_mem ((hexe _).2 ht), he⟩
  have hcases : ∀ e ∈ closures.flatMap StageClosure.entries, ∃ t, u.Executable plan t ∧
      e ∈ (u.closureOf n t).entries := fun e he => by
    rw [hmap] at he
    obtain ⟨closure, hclosure, he⟩ := List.mem_flatMap.1 he
    obtain ⟨t, ht, rfl⟩ := List.mem_map.1 hclosure
    exact ⟨t, (hexe t).1 ht, he⟩
  have hclaim : ∀ {t lib}, u.Executable plan t → lib ∈ u.targetRuntimeLibs t →
      claims.lookup (u.libPath n t lib) = some lib := fun {t lib} ht hlib => by
    refine howned ⟨lib, u.libPath n t lib⟩ ?_
    rw [hmap]
    exact List.mem_flatMap.2 ⟨_, List.mem_map_of_mem ((hexe _).2 ht), List.mem_map_of_mem hlib⟩
  constructor
  · intro hdistinct
    refine ⟨fun a b ha hb hpath => ?_, fun a b ha hb lib hlib hpath => ?_⟩
    · exact hdistinct _ (hmem ha List.mem_cons_self) _ (hmem hb List.mem_cons_self) hpath
    · exact hdistinct _ (hmem ha List.mem_cons_self) ⟨lib, u.libPath n b lib⟩
        (hmem hb (mem_entries_closureOf.2 (.inr ⟨lib, hlib, rfl⟩))) hpath
  · intro hapart e he e' he' hpath
    obtain ⟨a, ha, hea⟩ := hcases e he
    obtain ⟨b, hb, heb⟩ := hcases e' he'
    rcases mem_entries_closureOf.1 hea with rfl | ⟨lib, hlib, rfl⟩
    · rcases mem_entries_closureOf.1 heb with rfl | ⟨lib', hlib', rfl⟩
      · exact hapart.1 a b ha hb hpath
      · exact hapart.2 a b ha hb lib' hlib' hpath
    · rcases mem_entries_closureOf.1 heb with rfl | ⟨lib', hlib', rfl⟩
      · exact (hapart.2 b a hb ha lib hlib hpath.symm).symm
      · have hlookup := hclaim ha hlib
        dsimp only at hpath
        rw [hpath, hclaim hb hlib'] at hlookup
        exact (Option.some.inj hlookup).symm

/-- The artifacts of a plan have places of their own exactly where no executable stands in the
place of another one or of a library. -/
theorem staged_distinct {plans : List (BuildPlan T)} {staged : List (List (StageClosure T))}
    (h : u.addTargetBuildTargets n plans = .ok staged) :
    List.Forall₂ (fun plan closures => Distinct closures ↔ u.Apart n plan) plans staged := by
  obtain ⟨roots, hplans, hroots⟩ := bind_eq_ok.1 h
  have hstaged := forall₂_of_mapM hroots
  have hall := forall₂_of_mapM hplans
  clear h hroots hplans
  induction hall generalizing staged with
  | nil =>
    cases hstaged
    exact .nil
  | cons hplan _ ih =>
    cases hstaged with
    | cons hclosures hrest => exact .cons (distinct_iff_apart hplan hclosures) (ih hrest)

end

end Units

/-- A package with one executable, and one with a shared library that it links. -/
def besideLibrary : Units (Fin 2) (Fin 2) where
  pkg
    | 0 => ⟨[⟨1, .package, false⟩], []⟩
    | 1 => ⟨[], [1]⟩
  target
    | 0 => ⟨0, .exe, .none, false, []⟩
    | 1 => ⟨1, .lib, .shared, false, []⟩

/-- Their names, for Linux. -/
def besideNames (exe : Str) : Naming (Fin 2) (Fin 2) where
  build _ := ⟨⟨.build, str "debug"⟩, .linux⟩
  lib _ := ⟨.store, str "foo/lib"⟩
  name
    | 0 => exe
    | 1 => str "foo"

/-- The plan that builds the executable. -/
def besidePlan : BuildPlan (Fin 2) where
  libs := []
  exes := [0]
  scripts := []
  tests := []
  examples := []
  passes _ := true

/-- What is staged for it. -/
def besideStaged (exe : Str) : List (StageClosure (Fin 2)) :=
  [⟨⟨0, ⟨.build, str "debug/" ++ exe⟩⟩, [⟨1, ⟨.build, str "debug/libfoo.so"⟩⟩]⟩]

theorem staged_distinct_tool :
    [besidePlan].Forall₂ (fun plan closures => Distinct closures ↔
      besideLibrary.Apart (besideNames (str "tool")) plan) [besideStaged (str "tool")] :=
  Units.staged_distinct (by decide)

/-- A package with an executable and a script. -/
def sameNamed : Units (Fin 1) (Fin 2) where
  pkg _ := ⟨[], []⟩
  target
    | 0 => ⟨0, .exe, .none, false, []⟩
    | 1 => ⟨0, .script, .none, false, []⟩

def sameNames : Naming (Fin 1) (Fin 2) where
  build _ := ⟨⟨.build, str "debug"⟩, .linux⟩
  lib _ := ⟨.store, str "run/lib"⟩
  name _ := str "run"

def samePlan : BuildPlan (Fin 2) where
  libs := []
  exes := [0]
  scripts := [1]
  tests := []
  examples := []
  passes _ := true

def sameStaged : List (StageClosure (Fin 2)) :=
  [⟨⟨0, sameNamed.stagedPath sameNames 0⟩, []⟩, ⟨⟨1, sameNamed.stagedPath sameNames 1⟩, []⟩]

/-- An executable with the name of the library's file, and a script with that of an executable. -/
theorem library_over_executable :
    (besideLibrary.addTargetBuildTargets (besideNames (str "libfoo.so")) [besidePlan] =
        .ok [besideStaged (str "libfoo.so")] ∧
      ¬Distinct (besideStaged (str "libfoo.so"))) ∧
      sameNamed.addTargetBuildTargets sameNames [samePlan] = .ok [sameStaged] ∧
        ¬Distinct sameStaged := by
  refine ⟨⟨by decide, fun h => ?_⟩, by decide, fun h => ?_⟩
  · have heq := h ⟨0, ⟨.build, str "debug/libfoo.so"⟩⟩ (by decide)
      ⟨1, ⟨.build, str "debug/libfoo.so"⟩⟩ (by decide) rfl
    exact absurd heq (by decide)
  · have hpath : sameNamed.stagedPath sameNames 0 = sameNamed.stagedPath sameNames 1 :=
      (Units.stagedPath_eq_iff rfl (by decide) (by decide) rfl rfl).2 ⟨rfl, rfl⟩
    have heq := h ⟨0, _⟩ (.head _) ⟨1, _⟩ (.tail _ (.head _)) hpath
    exact absurd heq (by decide)

end Spn.Link
