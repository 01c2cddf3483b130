import Spn.Link.Stage

/-! # The output directory over many runs

What is staged in one output directory by runs that may stop anywhere. What is on the disk of
what was staged once is in the manifest at all times, and the manifest has for each executable
the closure of the last run that recorded one; a run that ends leaves what its closures and
the recorded ones name, and nothing else of what was staged. This is so as long as no removal,
and no read or write of the manifest, has failed without stopping its run: the library whose
removal failed is no longer in the manifest, and stays.
-/
namespace Spn.Link

open Spn.Lib

/-! ## The manifest is read as it was written -/

/-- A pair that a line of the manifest can hold. -/
def Staged.Clean (staged : Staged) : Prop :=
  tab ∉ staged.exe ∧ newline ∉ staged.exe ∧ newline ∉ staged.entry

theorem readLine_append {exe : Str} (h : tab ∉ exe) (entry : Str) :
    readLine (exe ++ tab :: entry) = some ⟨exe, entry⟩ := by
  have hdrop : (exe ++ tab :: entry).drop (exe.length + 1) = entry := by
    rw [← List.drop_drop, List.drop_left]
    rfl
  rw [readLine, findC8_append h, Option.map_some, List.take_left, hdrop]

theorem readLine_eq_some {line : Str} {staged : Staged} (h : readLine line = some staged) :
    tab ∉ staged.exe ∧ line = staged.line := by
  by_cases hmem : tab ∈ line
  · obtain ⟨exe, entry, rfl, hexe⟩ := List.eq_append_cons_of_mem hmem
    rw [readLine_append hexe] at h
    obtain rfl := Option.some.inj h
    exact ⟨hexe, rfl⟩
  · rw [readLine, findC8_of_not_mem hmem] at h
    cases h

theorem readStaged_writeStaged {next : List Staged} (h : ∀ staged ∈ next, staged.Clean) :
    readStaged (writeStaged next) = next := by
  have hlines : ∀ line ∈ next.map Staged.line, newline ∉ line := by
    intro line hline
    obtain ⟨staged, hstaged, rfl⟩ := List.mem_map.1 hline
    obtain ⟨-, hexe, hentry⟩ := h staged hstaged
    refine fun hmem => (List.mem_append.1 hmem).elim hexe fun hmem => ?_
    exact (List.mem_cons.1 hmem).elim (by decide) hentry
  have hread : ∀ staged ∈ next, readLine staged.line = some staged :=
    fun staged hstaged => readLine_append (h staged hstaged).1 staged.entry
  have hsplit := splitOn_terminated hlines []
  rw [List.append_nil] at hsplit
  have hempty : readLine [] = none := rfl
  rw [readStaged, writeStaged, hsplit, List.filterMap_append, List.filterMap_map,
    List.splitOn_nil, List.filterMap_cons_none hempty, List.filterMap_nil, List.append_nil]
  exact (List.filterMap_congr hread).trans (List.filterMap_some)

/-- Whatever a manifest holds, what is read of it can be written. -/
theorem clean_of_read {content : Str} {staged : Staged} (h : staged ∈ readStaged content) :
    staged.Clean := by
  obtain ⟨line, hline, hread⟩ := List.mem_filterMap.1 h
  obtain ⟨htab, rfl⟩ := readLine_eq_some hread
  have hno := not_mem_of_mem_splitOn hline
  exact ⟨htab, fun hmem => hno (List.mem_append_left _ hmem),
    fun hmem => hno (List.mem_append_right _ (List.mem_cons_of_mem _ hmem))⟩

/-! ## What operations change -/

variable {dir : OutputDir} {ops : List FileOp} {path : Path}

theorem OutputDir.apply_append (dir : OutputDir) (ops ops' : List FileOp) :
    dir.apply (ops ++ ops') = (dir.apply ops).apply ops' := List.foldl_append

/-- The operation writes the manifest. -/
def FileOp.recordsAll : FileOp → Bool
  | .writeManifest _ ok => ok
  | .remove _ _ | .createParent | .keep _ | .copy _ _ => false

theorem FileOp.apply_manifest {op : FileOp} (h : op.recordsAll = false) :
    (op.apply dir).manifest = dir.manifest := by
  cases op with
  | writeManifest content ok =>
    obtain rfl : ok = false := h
    rfl
  | remove path ok => cases ok <;> rfl
  | createParent | keep | copy => rfl

theorem FileOp.apply_disk {op : FileOp} (hremove : op ≠ .remove path true)
    (hstaged : op.staged ≠ some path) : (op.apply dir).disk path = dir.disk path := by
  cases op with
  | remove other ok =>
    cases ok with
    | false => rfl
    | true => exact Function.update_of_ne (fun h => hremove (by rw [h])) _ _
  | writeManifest content ok => cases ok <;> rfl
  | copy other bytes => exact Function.update_of_ne (fun h => hstaged (congrArg some h.symm)) _ _
  | createParent | keep => rfl

theorem FileOp.apply_absent {op : FileOp} (hstaged : op.staged ≠ some path)
    (h : dir.disk path = none) : (op.apply dir).disk path = none := by
  by_cases hremove : op = .remove path true
  · rw [hremove]
    exact Function.update_self _ _ _
  · rw [op.apply_disk hremove hstaged, h]

theorem apply_manifest (h : ∀ op ∈ ops, op.recordsAll = false) :
    (dir.apply ops).manifest = dir.manifest := by
  induction ops generalizing dir with
  | nil => rfl
  | cons op ops ih =>
    exact (ih fun op hop => h op (List.mem_cons_of_mem _ hop)).trans
      (op.apply_manifest (h op List.mem_cons_self))

theorem apply_disk (hremove : .remove path true ∉ ops)
    (hstaged : path ∉ ops.filterMap FileOp.staged) :
    (dir.apply ops).disk path = dir.disk path := by
  induction ops generalizing dir with
  | nil => rfl
  | cons op ops ih =>
    have hop : op.staged ≠ some path := fun h =>
      hstaged (List.mem_filterMap.2 ⟨op, List.mem_cons_self, h⟩)
    refine (ih (fun h => hremove (List.mem_cons_of_mem _ h)) fun h => ?_).trans
      (op.apply_disk (fun h => hremove (h ▸ List.mem_cons_self)) hop)
    obtain ⟨op', hop', h⟩ := List.mem_filterMap.1 h
    exact hstaged (List.mem_filterMap.2 ⟨op', List.mem_cons_of_mem _ hop', h⟩)

theorem apply_absent (hstaged : path ∉ ops.filterMap FileOp.staged) (h : dir.disk path = none) :
    (dir.apply ops).disk path = none := by
  induction ops generalizing dir with
  | nil => exact h
  | cons op ops ih =>
    refine ih (fun h => hstaged ?_) (op.apply_absent (fun h => hstaged ?_) h)
    · obtain ⟨op', hop', h⟩ := List.mem_filterMap.1 h
      exact List.mem_filterMap.2 ⟨op', List.mem_cons_of_mem _ hop', h⟩
    · exact List.mem_filterMap.2 ⟨op, List.mem_cons_self, h⟩

theorem apply_removed (hstaged : path ∉ ops.filterMap FileOp.staged) (h : .remove path true ∈ ops) :
    (dir.apply ops).disk path = none := by
  obtain ⟨pre, post, rfl⟩ := List.append_of_mem h
  rw [List.filterMap_append, List.mem_append, not_or] at hstaged
  rw [OutputDir.apply_append]
  have hpost : path ∉ post.filterMap FileOp.staged :=
    fun h => hstaged.2 (by rwa [List.filterMap_cons_none rfl])
  change (((dir.apply pre).apply [.remove path true]).apply post).disk path = none
  exact apply_absent hpost (Function.update_self _ _ _)

namespace StageRun

variable {T D : Type} [DecidableEq D] {digest : Str → D} {r : StageRun T} {root : PathRoot}

/-! ## The copies -/

theorem stageCopy_cases (dir : OutputDir) (job : Path × Str) :
    r.stageCopy digest dir job = .keep job.1 ∨ r.stageCopy digest dir job = .copy job.1 job.2 := by
  rw [stageCopy]
  split
  · exact .inr rfl
  · split
    · exact .inl rfl
    · exact .inr rfl

theorem staged_stageCopy (dir : OutputDir) (job : Path × Str) :
    (r.stageCopy digest dir job).staged = some job.1 := by
  obtain h | h := @stageCopy_cases T D _ digest r dir job
  · rw [h]
    rfl
  · rw [h]
    rfl

theorem mem_copyOps {jobs : List (Path × Str)} {op : FileOp} (h : op ∈ r.copyOps digest dir jobs) :
    ∃ job ∈ jobs, op = .keep job.1 ∨ op = .copy job.1 job.2 := by
  induction jobs generalizing dir with
  | nil => cases h
  | cons job jobs ih =>
    rw [copyOps] at h
    obtain rfl | h := List.mem_cons.1 h
    · exact ⟨job, List.mem_cons_self, stageCopy_cases dir job⟩
    · obtain ⟨job', hjob', hop⟩ := ih h
      exact ⟨job', List.mem_cons_of_mem _ hjob', hop⟩

theorem staged_copyOps (dir : OutputDir) (jobs : List (Path × Str)) :
    (r.copyOps digest dir jobs).filterMap FileOp.staged = jobs.map Prod.fst := by
  induction jobs generalizing dir with
  | nil => rfl
  | cons job jobs ih =>
    rw [copyOps, List.filterMap_cons_some (staged_stageCopy dir job), ih, List.map_cons]

/-- After a job its file is as built. -/
theorem stageCopy_disk (hdigest : Function.Injective digest) (dir : OutputDir) (job : Path × Str) :
    ∃ file, ((r.stageCopy digest dir job).apply dir).disk job.1 = some file ∧
      file.bytes = job.2 := by
  rw [stageCopy]
  split
  · exact ⟨_, Function.update_self _ _ _, rfl⟩
  · rename_i file hfile
    split
    · rename_i hkeep
      exact ⟨file, hfile, hdigest hkeep.2.2⟩
    · exact ⟨_, Function.update_self _ _ _, rfl⟩

/-- Where no two jobs disagree about a place, all the files are as built in the end. -/
theorem copyOps_disk (hdigest : Function.Injective digest) {jobs : List (Path × Str)}
    (hjobs : ∀ job ∈ jobs, ∀ job' ∈ jobs, job.1 = job'.1 → job.2 = job'.2) {job : Path × Str}
    (hjob : job ∈ jobs) : ∃ file, (dir.apply (r.copyOps digest dir jobs)).disk job.1 = some file ∧
      file.bytes = job.2 := by
  induction jobs generalizing dir job with
  | nil => cases hjob
  | cons first jobs ih =>
    have hrest : ∀ job ∈ jobs, ∀ job' ∈ jobs, job.1 = job'.1 → job.2 = job'.2 :=
      fun job hjob job' hjob' =>
        hjobs job (List.mem_cons_of_mem _ hjob) job' (List.mem_cons_of_mem _ hjob')
    by_cases hlater : ∃ later ∈ jobs, later.1 = job.1
    · obtain ⟨later, hmem, hpath⟩ := hlater
      rw [← hpath, ← hjobs later (List.mem_cons_of_mem _ hmem) job hjob hpath]
      exact ih hrest hmem
    · have hfirst : job = first := (List.mem_cons.1 hjob).resolve_right fun hmem =>
        hlater ⟨job, hmem, rfl⟩
      subst hfirst
      obtain ⟨file, hfile, hbytes⟩ := stageCopy_disk (r := r) hdigest dir job
      have hcons : dir.apply (r.copyOps digest dir (job :: jobs)) =
        ((r.stageCopy digest dir job).apply dir).apply
          (r.copyOps digest ((r.stageCopy digest dir job).apply dir) jobs) := rfl
      refine ⟨file, ?_, hbytes⟩
      rw [hcons, ← hfile]
      refine apply_disk (fun hop => ?_) fun hop => ?_
      · obtain ⟨job', -, h | h⟩ := mem_copyOps hop
        · cases h
        · cases h
      · rw [staged_copyOps] at hop
        obtain ⟨later, hmem, hpath⟩ := List.mem_map.1 hop
        exact hlater ⟨later, hmem, hpath⟩

/-! ## The jobs -/

theorem mem_libJobs {copied : List Path} {libs : List (StageEntry T)} {job : Path × Str}
    (h : job ∈ (r.libJobs copied libs).1) :
    ∃ lib ∈ libs, job.1 = lib.path ∧ r.built lib.target = some job.2 := by
  induction libs generalizing copied with
  | nil => cases h
  | cons lib libs ih =>
    rw [libJobs] at h
    split at h
    · obtain ⟨lib', hlib', hjob⟩ := ih h
      exact ⟨lib', List.mem_cons_of_mem _ hlib', hjob⟩
    · rename_i bytes hbytes
      split at h
      · obtain ⟨lib', hlib', hjob⟩ := ih h
        exact ⟨lib', List.mem_cons_of_mem _ hlib', hjob⟩
      · obtain rfl | h := List.mem_cons.1 h
        · exact ⟨lib, List.mem_cons_self, rfl, hbytes⟩
        · obtain ⟨lib', hlib', hjob⟩ := ih h
          exact ⟨lib', List.mem_cons_of_mem _ hlib', hjob⟩

/-- What is copied has a job, and each library that is built is copied. -/
theorem libJobs_copied {copied : List Path} {libs : List (StageEntry T)} :
    (∀ path ∈ (r.libJobs copied libs).2,
      path ∈ copied ∨ ∃ job ∈ (r.libJobs copied libs).1, job.1 = path) ∧
    (∀ path ∈ copied, path ∈ (r.libJobs copied libs).2) ∧
    ∀ lib ∈ libs, r.built lib.target ≠ none → lib.path ∈ (r.libJobs copied libs).2 := by
  induction libs generalizing copied with
  | nil => exact ⟨fun path h => .inl h, fun path h => h, nofun⟩
  | cons lib libs ih =>
    rw [libJobs]
    split
    · rename_i hnone
      obtain ⟨hjob, hkept, hall⟩ := @ih copied
      refine ⟨hjob, hkept, fun lib' hlib' hbuilt => ?_⟩
      obtain rfl | hlib' := List.mem_cons.1 hlib'
      · exact absurd hnone hbuilt
      · exact hall lib' hlib' hbuilt
    · split
      · rename_i hcopied
        obtain ⟨hjob, hkept, hall⟩ := @ih copied
        refine ⟨hjob, hkept, fun lib' hlib' hbuilt => ?_⟩
        obtain rfl | hlib' := List.mem_cons.1 hlib'
        · exact hkept _ hcopied
        · exact hall lib' hlib' hbuilt
      · obtain ⟨hjob, hkept, hall⟩ := @ih (lib.path :: copied)
        refine ⟨fun path hpath => ?_, fun path hpath => hkept path (List.mem_cons_of_mem _ hpath),
          fun lib' hlib' hbuilt => ?_⟩
        · rcases hjob path hpath with h | ⟨job, hmem, hpath⟩
          · obtain rfl | h := List.mem_cons.1 h
            · exact .inr ⟨_, List.mem_cons_self, rfl⟩
            · exact .inl h
          · exact .inr ⟨job, List.mem_cons_of_mem _ hmem, hpath⟩
        · obtain rfl | hlib' := List.mem_cons.1 hlib'
          · exact hkept _ List.mem_cons_self
          · exact hall lib' hlib' hbuilt

theorem mem_jobs {copied : List Path} {closures : List (StageClosure T)} {job : Path × Str}
    (h : job ∈ r.jobs copied closures) : ∃ e ∈ closures.flatMap StageClosure.entries,
      job.1 = e.path ∧ r.built e.target = some job.2 := by
  induction closures generalizing copied with
  | nil => cases h
  | cons closure closures ih =>
    rw [List.flatMap_cons]
    have hrest : ∀ {copied}, job ∈ r.jobs copied closures →
        ∃ e ∈ closure.entries ++ closures.flatMap StageClosure.entries,
          job.1 = e.path ∧ r.built e.target = some job.2 := fun h => by
      obtain ⟨e, he, hjob⟩ := ih h
      exact ⟨e, List.mem_append_right _ he, hjob⟩
    rw [jobs] at h
    split at h
    · exact hrest h
    · rename_i bytes hbytes
      obtain rfl | h := List.mem_cons.1 h
      · exact ⟨closure.exe, List.mem_append_left _ List.mem_cons_self, rfl, hbytes⟩
      · rcases List.mem_append.1 h with h | h
        · obtain ⟨lib, hlib, hjob⟩ := mem_libJobs h
          exact ⟨lib, List.mem_append_left _ (List.mem_cons_of_mem _ hlib), hjob⟩
        · exact hrest h

/-- Each entry has a job, or is copied already. -/
theorem jobs_all {copied : List Path} {closures : List (StageClosure T)}
    (hbuilt : ∀ e ∈ closures.flatMap StageClosure.entries, r.built e.target ≠ none) :
    ∀ e ∈ closures.flatMap StageClosure.entries,
      e.path ∈ copied ∨ ∃ job ∈ r.jobs copied closures, job.1 = e.path := by
  induction closures generalizing copied with
  | nil => exact nofun
  | cons closure closures ih =>
    rw [List.flatMap_cons] at hbuilt ⊢
    intro e he
    rw [jobs]
    split
    · rename_i hnone
      exact absurd hnone (hbuilt _ (List.mem_append_left _ List.mem_cons_self))
    · rename_i bytes _
      obtain ⟨hjob, -, hall⟩ := @libJobs_copied T r copied closure.libs
      have hlibs : ∀ path ∈ (r.libJobs copied closure.libs).2, path ∈ copied ∨
          ∃ job ∈ (closure.exe.path, bytes) :: ((r.libJobs copied closure.libs).1 ++
            r.jobs (r.libJobs copied closure.libs).2 closures), job.1 = path := by
        intro path hpath
        refine (hjob path hpath).imp_right ?_
        exact fun ⟨job, hmem, hpath⟩ =>
          ⟨job, List.mem_cons_of_mem _ (List.mem_append_left _ hmem), hpath⟩
      rcases List.mem_append.1 he with he | he
      · obtain rfl | he := List.mem_cons.1 he
        · exact .inr ⟨_, List.mem_cons_self, rfl⟩
        · exact hlibs _ (hall e he (hbuilt e (List.mem_append_left _ (List.mem_cons_of_mem _ he))))
      · rcases ih (fun e he => hbuilt e (List.mem_append_right _ he)) e he with hcopied | hmem
        · exact hlibs _ hcopied
        · obtain ⟨job, hmem, hpath⟩ := hmem
          exact .inr ⟨job, List.mem_cons_of_mem _ (List.mem_append_right _ hmem), hpath⟩

/-! ## The new manifest -/

/-- The places of the plan. -/
def places (r : StageRun T) : List Path := r.entries.map StageEntry.path

/-- What a run records for an executable of its plan. -/
def records (r : StageRun T) (exe : Path) : List Path :=
  (r.closures.filter fun closure => closure.exe.path = exe).flatMap fun closure =>
    closure.entries.map StageEntry.path

/-- Everything goes into the output directory, and no path has a tab or a newline. -/
structure Ready (root : PathRoot) (r : StageRun T) : Prop where
  inRoot : ∀ e ∈ r.entries, e.path.root = root
  clean : ∀ e ∈ r.entries, tab ∉ e.path.sub ∧ newline ∉ e.path.sub

theorem mem_records {exe path : Path} : path ∈ r.records exe ↔
    ∃ closure ∈ r.closures, closure.exe.path = exe ∧ ∃ e ∈ closure.entries, e.path = path := by
  simp [records, and_assoc]

theorem exe_mem_entries {closure : StageClosure T} (h : closure ∈ r.closures) :
    closure.exe ∈ r.entries := List.mem_flatMap.2 ⟨closure, h, List.mem_cons_self⟩

theorem mem_entries {closure : StageClosure T} (h : closure ∈ r.closures) {e : StageEntry T}
    (he : e ∈ closure.entries) : e ∈ r.entries := List.mem_flatMap.2 ⟨closure, h, he⟩

theorem mem_places_of_records {exe path : Path} (h : path ∈ r.records exe) : path ∈ r.places := by
  obtain ⟨closure, hclosure, -, e, he, rfl⟩ := mem_records.1 h
  exact List.mem_map_of_mem (mem_entries hclosure he)

variable {previous : List Staged}

theorem mem_next {staged : Staged} : staged ∈ r.next root previous ↔
    (∃ closure ∈ r.closures, ∃ e ∈ closure.entries,
      staged = ⟨closure.exe.path.sub, e.path.sub⟩) ∨
    staged ∈ previous ∧ ⟨root, staged.exe⟩ ∉ r.exes := by
  rw [next, List.mem_append, List.mem_flatMap, List.mem_filter]
  simp only [pairs, List.mem_map, decide_eq_true_eq, @eq_comm _ staged]

theorem clean_next (hready : r.Ready root) (hprevious : ∀ staged ∈ previous, staged.Clean) :
    ∀ staged ∈ r.next root previous, staged.Clean := by
  intro staged h
  rcases mem_next.1 h with ⟨closure, hclosure, e, he, rfl⟩ | ⟨hmem, -⟩
  · obtain ⟨htab, hnewline⟩ := hready.clean _ (exe_mem_entries hclosure)
    exact ⟨htab, hnewline, (hready.clean e (mem_entries hclosure he)).2⟩
  · exact hprevious staged hmem

/-- The new manifest has what the run records for the executables of its plan, and what the old
one has for the others. -/
theorem pair_mem_next (hready : r.Ready root) {exe path : Path} (hexe : exe.root = root)
    (hpath : path.root = root) : ⟨exe.sub, path.sub⟩ ∈ r.next root previous ↔
      if exe ∈ r.exes then path ∈ r.records exe else ⟨exe.sub, path.sub⟩ ∈ previous := by
  have hself : (⟨root, exe.sub⟩ : Path) = exe := by rw [← hexe]
  have hplan : (∃ closure ∈ r.closures, ∃ e ∈ closure.entries,
      (⟨exe.sub, path.sub⟩ : Staged) = ⟨closure.exe.path.sub, e.path.sub⟩) ↔
      path ∈ r.records exe := by
    rw [mem_records]
    constructor
    · rintro ⟨closure, hclosure, e, he, heq⟩
      obtain ⟨hexe', hpath'⟩ := Staged.mk.inj heq
      refine ⟨closure, hclosure, Path.ext ?_ hexe'.symm, e, he, Path.ext ?_ hpath'.symm⟩
      · rw [hready.inRoot _ (exe_mem_entries hclosure), hexe]
      · rw [hready.inRoot _ (mem_entries hclosure he), hpath]
    · rintro ⟨closure, hclosure, rfl, e, he, rfl⟩
      exact ⟨closure, hclosure, e, he, rfl⟩
  rw [mem_next, hplan, hself]
  split
  · rename_i hmem
    exact or_iff_left fun h => h.2 hmem
  · rename_i hmem
    refine ⟨fun h => h.elim (fun h => ?_) And.left, fun h => .inr ⟨h, hmem⟩⟩
    obtain ⟨closure, hclosure, rfl, -⟩ := mem_records.1 h
    exact absurd (List.mem_map_of_mem hclosure) hmem

/-- What a run copies is named by its manifest. -/
theorem named_of_job (hready : r.Ready root) {job : Path × Str}
    (h : job ∈ r.jobs [] r.closures) :
    job.1.root = root ∧ ∃ exe, ⟨exe, job.1.sub⟩ ∈ r.next root previous := by
  obtain ⟨e, he, hpath, -⟩ := mem_jobs h
  obtain ⟨closure, hclosure, he'⟩ := List.mem_flatMap.1 he
  rw [hpath]
  exact ⟨hready.inRoot e he, closure.exe.path.sub,
    mem_next.2 (.inl ⟨closure, hclosure, e, he', rfl⟩)⟩

/-! ## The operations before the manifest is written -/

variable {o : Outcomes} {removed : ℕ → Bool}

/-- Only what nothing names any more is removed. -/
theorem removals_cases {op : FileOp} (h : op ∈ r.removals root removed previous) :
    ∃ staged ∈ previous, staged.entry ∉ (r.next root previous).map Staged.entry ∧
      ∃ ok, op = .remove ⟨root, staged.entry⟩ ok := by
  obtain ⟨i, hi, rfl⟩ := List.mem_mapIdx.1 h
  obtain ⟨hmem, hdead⟩ := List.mem_filter.1 (List.getElem_mem hi)
  exact ⟨_, hmem, of_decide_eq_true hdead, _, rfl⟩

/-- Where no removal fails, all of it is. -/
theorem removed_of_dead (hok : ∀ i, removed i = true) {staged : Staged}
    (hmem : staged ∈ previous) (hdead : staged.entry ∉ (r.next root previous).map Staged.entry) :
    .remove ⟨root, staged.entry⟩ true ∈ r.removals root removed previous := by
  have hleft : staged ∈ previous.filter fun staged =>
      staged.entry ∉ (r.next root previous).map Staged.entry :=
    List.mem_filter.2 ⟨hmem, decide_eq_true hdead⟩
  obtain ⟨i, hi, hstaged⟩ := List.getElem_of_mem hleft
  refine List.mem_mapIdx.2 ⟨i, hi, ?_⟩
  rw [hstaged, hok]

theorem before_cases {op : FileOp} (h : op ∈ r.before root o dir) :
    op = .createParent ∨ ∃ path ok, op = .remove path ok := by
  rcases List.mem_append.1 h with h | h
  · obtain ⟨staged, -, -, ok, rfl⟩ := removals_cases h
    exact .inr ⟨_, ok, rfl⟩
  · exact .inl (List.mem_singleton.1 h)

theorem staged_before {ops : List FileOp} (h : ∀ op ∈ ops, op ∈ r.before root o dir) :
    ops.filterMap FileOp.staged = [] := by
  refine List.filterMap_eq_nil_iff.2 fun op hop => ?_
  rcases before_cases (h op hop) with rfl | ⟨path, ok, rfl⟩
  · rfl
  · rfl

theorem records_before {ops : List FileOp} (h : ∀ op ∈ ops, op ∈ r.before root o dir) :
    ∀ op ∈ ops, op.recordsAll = false := by
  intro op hop
  rcases before_cases (h op hop) with rfl | ⟨path, ok, rfl⟩
  · rfl
  · rfl

theorem read_of_fine (h : o.Fine) (dir : OutputDir) : read o dir = StageRun.previous dir :=
  if_pos h.1

end StageRun

/-! ## Many runs -/

/-- The output directory, the places that runs have staged, and the closure that was last
recorded for each executable. -/
structure Story where
  dir : OutputDir
  staged : List Path
  recorded : Path → List Path

/-- The file is changed, or removed. -/
def OutputDir.put (dir : OutputDir) (path : Path) (file : Option File) : OutputDir :=
  { dir with disk := Function.update dir.disk path file }

/-- What happens: a run, all of it or so many of its operations, or someone else changes or
removes a file. -/
inductive Event (T : Type)
  | run (r : StageRun T) (o : Outcomes) (stop : Option ℕ)
  | change (path : Path) (file : Option File)

namespace Story

variable {T D : Type} [DecidableEq D]

/-- A run has done these operations. -/
def perform (s : Story) (r : StageRun T) (ops : List FileOp) : Story where
  dir := s.dir.apply ops
  staged := s.staged ++ ops.filterMap FileOp.staged
  recorded :=
    if ops.any FileOp.recordsAll then
      fun exe => if exe ∈ r.exes then r.records exe else s.recorded exe
    else s.recorded

/-- What is done of a run. -/
def done (digest : Str → D) (root : PathRoot) (s : Story) (r : StageRun T) (o : Outcomes) :
    Option ℕ → List FileOp
  | none => r.dagStage digest root o s.dir
  | some k => (r.dagStage digest root o s.dir).take k

def step (digest : Str → D) (root : PathRoot) (s : Story) : Event T → Story
  | .run r o stop => s.perform r (s.done digest root r o stop)
  | .change path file =>
    if s.dir.disk path = none then s else { s with dir := s.dir.put path file }

/-- Nothing is staged yet in a directory of these files. -/
def start (disk : Path → Option File) : Story := ⟨⟨disk, none⟩, [], fun _ => []⟩

def after (digest : Str → D) (root : PathRoot) (disk : Path → Option File)
    (events : List (Event T)) : Story := events.foldl (step digest root) (start disk)

/-- The manifest has what was last recorded, and of what was staged all that is there. -/
structure Inv (root : PathRoot) (s : Story) : Prop where
  recorded_iff : ∀ exe path, path ∈ s.recorded exe ↔ exe.root = root ∧ path.root = root ∧
    ⟨exe.sub, path.sub⟩ ∈ StageRun.previous s.dir
  present : ∀ path ∈ s.staged, s.dir.disk path ≠ none → ∃ exe, path ∈ s.recorded exe

variable {digest : Str → D} {root : PathRoot} {s : Story} {r : StageRun T} {o : Outcomes}

theorem inv_start (root : PathRoot) (disk : Path → Option File) : Inv root (start disk) where
  recorded_iff _ _ := ⟨nofun, fun h => nomatch h.2.2⟩
  present _ := nofun

theorem Inv.change (h : Inv root s) (path : Path) (file : Option File) :
    Inv root (s.step digest root (.change path file : Event T)) := by
  rw [step]
  split
  · exact h
  · rename_i hpresent
    refine ⟨h.recorded_iff, fun other hother hdisk => h.present other hother ?_⟩
    by_cases heq : other = path
    · exact heq ▸ hpresent
    · have hput : (s.dir.put path file).disk other = s.dir.disk other :=
        Function.update_of_ne heq _ _
      exact fun habsent => hdisk (hput.trans habsent)

/-- A run that has not come to the manifest has removed what nothing names, at most. -/
theorem Inv.before (h : Inv root s) {ops : List FileOp} (hops : ops <+: r.before root o s.dir) :
    Inv root (s.perform r ops) := by
  have hmem : ∀ op ∈ ops, op ∈ r.before root o s.dir := fun op hop => hops.mem hop
  have hstaged := StageRun.staged_before hmem
  have hrecords : ops.any FileOp.recordsAll = false :=
    List.any_eq_false.2 fun op hop => Bool.not_eq_true _ ▸ StageRun.records_before hmem op hop
  have hmanifest := @apply_manifest s.dir ops (StageRun.records_before hmem)
  have hprevious : StageRun.previous (s.dir.apply ops) = StageRun.previous s.dir := by
    rw [StageRun.previous, hmanifest]
    rfl
  constructor
  · intro exe path
    rw [perform, hrecords]
    dsimp only
    rw [hprevious]
    exact h.recorded_iff exe path
  · intro path hpath hdisk
    rw [perform, hstaged, List.append_nil] at hpath
    rw [perform, hrecords]
    refine h.present path hpath fun habsent => hdisk ?_
    exact apply_absent (by rw [hstaged]; exact List.not_mem_nil) habsent

theorem previous_writeManifest (dir : OutputDir) (next : List Staged)
    (hclean : ∀ staged ∈ next, staged.Clean) {ops : List FileOp}
    (hops : ∀ op ∈ ops, op.recordsAll = false) :
    StageRun.previous (dir.apply (.writeManifest (writeStaged next) true :: ops)) = next := by
  have hcons : dir.apply (.writeManifest (writeStaged next) true :: ops) =
    (FileOp.apply dir (.writeManifest (writeStaged next) true)).apply ops := rfl
  rw [StageRun.previous, hcons, apply_manifest hops]
  exact readStaged_writeStaged hclean

/-- A run records the closures that its manifest names. -/
theorem Inv.recorded_next (h : Inv root s) (hready : r.Ready root) (exe path : Path) :
    path ∈ (if exe ∈ r.exes then r.records exe else s.recorded exe) ↔
      exe.root = root ∧ path.root = root ∧
        ⟨exe.sub, path.sub⟩ ∈ r.next root (StageRun.previous s.dir) := by
  by_cases hexe : exe ∈ r.exes
  · rw [if_pos hexe]
    constructor
    · intro hpath
      obtain ⟨closure, hclosure, rfl, e, he, rfl⟩ := StageRun.mem_records.1 hpath
      have hroot := hready.inRoot _ (StageRun.exe_mem_entries hclosure)
      have hroot' := hready.inRoot e (StageRun.mem_entries hclosure he)
      exact ⟨hroot, hroot', (StageRun.pair_mem_next hready hroot hroot').2 (by rwa [if_pos hexe])⟩
    · rintro ⟨hroot, hroot', hmem⟩
      rwa [StageRun.pair_mem_next hready hroot hroot', if_pos hexe] at hmem
  · rw [if_neg hexe, h.recorded_iff]
    refine and_congr_right fun hroot => and_congr_right fun hroot' => ?_
    rw [StageRun.pair_mem_next hready hroot hroot', if_neg hexe]

/-- What was staged before and is there when the manifest is written is named by it: everything
else has been removed. -/
theorem Inv.named_of_present (h : Inv root s) (hfine : o.Fine) {path : Path}
    (hpath : path ∈ s.staged) (hdisk : (s.dir.apply (r.before root o s.dir)).disk path ≠ none) :
    path.root = root ∧ ∃ exe, ⟨exe, path.sub⟩ ∈ r.next root (StageRun.previous s.dir) := by
  have hfresh : path ∉ (r.before root o s.dir).filterMap FileOp.staged := by
    rw [StageRun.staged_before fun op hop => hop]
    exact List.not_mem_nil
  obtain ⟨exe, hexe⟩ := h.present path hpath fun habsent => hdisk (apply_absent hfresh habsent)
  obtain ⟨-, hroot, hmem⟩ := (h.recorded_iff exe path).1 hexe
  refine ⟨hroot, ?_⟩
  by_contra hgone
  refine hdisk (apply_removed hfresh ?_)
  have hself : (⟨root, path.sub⟩ : Path) = path := by rw [← hroot]
  rw [StageRun.before, StageRun.read_of_fine hfine, ← hself]
  refine List.mem_append_left _ (StageRun.removed_of_dead hfine.2.1 hmem fun hlive => hgone ?_)
  obtain ⟨⟨exe', entry⟩, hnext, heq⟩ := List.mem_map.1 hlive
  obtain rfl : entry = path.sub := heq
  exact ⟨exe', hnext⟩

/-- A run that has written the manifest has recorded the closures of its plan. -/
theorem Inv.copies (h : Inv root s) (hready : r.Ready root) (hfine : o.Fine)
    {copies : List FileOp} {at' : OutputDir}
    (hcopies : copies <+: r.copyOps digest at' (r.jobs [] r.closures)) :
    Inv root (s.perform r (r.before root o s.dir ++ r.manifest root o s.dir :: copies)) := by
  obtain ⟨next, hnext⟩ : ∃ next, next = r.next root (StageRun.previous s.dir) := ⟨_, rfl⟩
  rw [StageRun.manifest, StageRun.read_of_fine hfine, hfine.2.2, ← hnext]
  have hcopy : ∀ op ∈ copies, ∃ job ∈ r.jobs [] r.closures,
      op = .keep job.1 ∨ op = .copy job.1 job.2 := fun op hop =>
    StageRun.mem_copyOps (hcopies.mem hop)
  have hprevious : StageRun.previous (s.dir.apply (r.before root o s.dir ++
      .writeManifest (writeStaged next) true :: copies)) = next := by
    have hclean : ∀ staged ∈ next, staged.Clean := by
      rw [hnext]
      exact StageRun.clean_next hready fun staged => clean_of_read
    have hwrites : ∀ op ∈ copies, op.recordsAll = false := by
      intro op hop
      obtain ⟨job, -, rfl | rfl⟩ := hcopy op hop
      · rfl
      · rfl
    rw [OutputDir.apply_append]
    exact previous_writeManifest _ _ hclean hwrites
  have hrecords : (r.before root o s.dir ++ .writeManifest (writeStaged next) true :: copies).any
      FileOp.recordsAll = true :=
    List.any_eq_true.2 ⟨_, List.mem_append_right _ List.mem_cons_self, rfl⟩
  have hiff : ∀ exe path, path ∈ (s.perform r (r.before root o s.dir ++
      .writeManifest (writeStaged next) true :: copies)).recorded exe ↔
        exe.root = root ∧ path.root = root ∧ ⟨exe.sub, path.sub⟩ ∈ next := by
    intro exe path
    rw [perform, if_pos hrecords, hnext]
    exact h.recorded_next hready exe path
  refine ⟨by rw [perform, hprevious]; exact hiff, fun path hpath hdisk => ?_⟩
  have hnamed : path.root = root ∧ ∃ exe, ⟨exe, path.sub⟩ ∈ next := by
    rw [hnext]
    by_cases hcopied : path ∈ copies.filterMap FileOp.staged
    · obtain ⟨op, hop, hstaged⟩ := List.mem_filterMap.1 hcopied
      obtain ⟨job, hjob, hcases⟩ := hcopy op hop
      have hplace : job.1 = path := by
        rcases hcases with rfl | rfl
        · exact Option.some.inj hstaged
        · exact Option.some.inj hstaged
      rw [← hplace]
      exact StageRun.named_of_job hready hjob
    · have hbare : (r.before root o s.dir ++ .writeManifest (writeStaged next) true ::
          copies).filterMap FileOp.staged = copies.filterMap FileOp.staged := by
        rw [List.filterMap_append, StageRun.staged_before fun op hop => hop, List.nil_append,
          List.filterMap_cons_none rfl]
      rw [perform, hbare] at hpath
      refine h.named_of_present hfine ((List.mem_append.1 hpath).resolve_right hcopied) ?_
      intro habsent
      refine hdisk ?_
      rw [perform, OutputDir.apply_append]
      exact apply_absent (by rwa [List.filterMap_cons_none rfl]) habsent
  obtain ⟨hroot, exe, hexe⟩ := hnamed
  exact ⟨⟨root, exe⟩, (hiff ⟨root, exe⟩ path).2 ⟨rfl, hroot, hexe⟩⟩

/-- What is done of a run stops before the manifest is written or among the copies. -/
theorem prefix_dagStage {ops : List FileOp} (h : ops <+: r.dagStage digest root o s.dir) :
    ops <+: r.before root o s.dir ∨ ∃ copies dir,
      copies <+: r.copyOps digest dir (r.jobs [] r.closures) ∧
        ops = r.before root o s.dir ++ r.manifest root o s.dir :: copies := by
  rcases List.prefix_or_prefix_of_prefix h (List.prefix_append _ _) with hbefore | ⟨rest, rfl⟩
  · exact .inl hbefore
  · rw [StageRun.dagStage, List.prefix_append_right_inj] at h
    cases rest with
    | nil => exact .inl (by rw [List.append_nil])
    | cons op copies =>
      obtain ⟨rfl, hcopies⟩ := List.cons_prefix_cons.1 h
      exact .inr ⟨copies, _, hcopies, rfl⟩

theorem prefix_done (stop : Option ℕ) :
    s.done digest root r o stop <+: r.dagStage digest root o s.dir := by
  cases stop with
  | none => exact List.prefix_rfl
  | some k => exact List.take_prefix k _

theorem Inv.run (h : Inv root s) (hready : r.Ready root) (hfine : o.Fine) (stop : Option ℕ) :
    Inv root (s.step digest root (.run r o stop)) := by
  rcases prefix_dagStage (@prefix_done T D _ digest root s r o stop) with hbefore | hcopies
  · exact h.before hbefore
  · obtain ⟨copies, dir, hprefix, heq⟩ := hcopies
    rw [step, heq]
    exact h.copies hready hfine hprefix

/-- The runs among the events, and how their calls end. -/
def runs (events : List (Event T)) : List (StageRun T × Outcomes) :=
  events.filterMap fun
    | .run r o _ => some (r, o)
    | .change _ _ => none

theorem inv_after {events : List (Event T)}
    (hruns : ∀ run ∈ runs events, run.1.Ready root ∧ run.2.Fine) (disk : Path → Option File) :
    Inv root (after digest root disk events) := by
  have hfold : ∀ (events : List (Event T)) (s : Story),
      (∀ run ∈ runs events, run.1.Ready root ∧ run.2.Fine) → Inv root s →
        Inv root (events.foldl (step digest root) s) := by
    intro events
    induction events with
    | nil => exact fun _ _ h => h
    | cons event events ih =>
      intro s hruns h
      cases event with
      | run r o stop =>
        have hcons : runs (.run r o stop :: events) = (r, o) :: runs events := rfl
        rw [hcons] at hruns
        obtain ⟨hready, hfine⟩ := hruns _ List.mem_cons_self
        exact ih _ (fun run hrun => hruns run (List.mem_cons_of_mem _ hrun))
          (h.run hready hfine stop)
      | change path file =>
        exact ih _ hruns (h.change path file)
  exact hfold events _ hruns (inv_start root disk)

/-- For an executable that was of no plan nothing is recorded. -/
theorem recorded_of_no_plan {events : List (Event T)} {exe : Path}
    (h : ∀ run ∈ runs events, exe ∉ run.1.exes) (disk : Path → Option File) :
    (after digest root disk events).recorded exe = [] := by
  have hfold : ∀ (events : List (Event T)) (s : Story), (∀ run ∈ runs events, exe ∉ run.1.exes) →
      s.recorded exe = [] → (events.foldl (step digest root) s).recorded exe = [] := by
    intro events
    induction events with
    | nil => exact fun _ _ h => h
    | cons event events ih =>
      intro s hruns h
      cases event with
      | run r o stop =>
        have hcons : runs (.run r o stop :: events) = (r, o) :: runs events := rfl
        rw [hcons] at hruns
        refine ih _ (fun run hrun => hruns run (List.mem_cons_of_mem _ hrun)) ?_
        rw [step, perform]
        split
        · exact (if_neg (hruns _ List.mem_cons_self)).trans h
        · exact h
      | change path file =>
        refine ih _ hruns ?_
        rw [step]
        split
        · exact h
        · exact h
  exact hfold events _ h rfl

/-- What a run leaves that has ended. -/
structure Exact (digest : Str → D) (root : PathRoot) (s : Story) (r : StageRun T) (o : Outcomes) :
    Prop where
  /-- The executables and the libraries are at their places, as built. -/
  placed : ∀ e ∈ r.entries, ∃ file,
    (s.dir.apply (r.dagStage digest root o s.dir)).disk e.path = some file ∧
      r.built e.target = some file.bytes
  /-- Of what earlier runs have staged, there is only what the plan or a recorded closure of
  another executable names. -/
  pruned : ∀ path ∈ s.staged, path ∉ r.places →
    (∀ exe, exe ∉ r.exes → path ∉ s.recorded exe) →
      (s.dir.apply (r.dagStage digest root o s.dir)).disk path = none
  /-- The removal of what a recorded closure of another executable names was not tried. -/
  kept : ∀ exe, exe ∉ r.exes → ∀ path ∈ s.recorded exe, ∀ ok,
    .remove path ok ∉ r.dagStage digest root o s.dir

theorem placed_of_ended (hdigest : Function.Injective digest) (hdistinct : Distinct r.closures)
    (hbuilt : ∀ e ∈ r.entries, r.built e.target ≠ none) {e : StageEntry T} (he : e ∈ r.entries) :
    ∃ file, (s.dir.apply (r.dagStage digest root o s.dir)).disk e.path = some file ∧
      r.built e.target = some file.bytes := by
  have hjobs : ∀ job ∈ r.jobs [] r.closures, ∀ job' ∈ r.jobs [] r.closures,
      job.1 = job'.1 → job.2 = job'.2 := by
    intro job hjob job' hjob' hpath
    obtain ⟨a, ha, hplace, hbytes⟩ := StageRun.mem_jobs hjob
    obtain ⟨b, hb, hplace', hbytes'⟩ := StageRun.mem_jobs hjob'
    rw [hdistinct a ha b hb (by rw [← hplace, ← hplace', hpath]), hbytes'] at hbytes
    exact (Option.some.inj hbytes).symm
  obtain ⟨job, hjob, hplace⟩ := (StageRun.jobs_all hbuilt e he).resolve_left List.not_mem_nil
  obtain ⟨e', he', hplace', hbytes⟩ := StageRun.mem_jobs hjob
  obtain ⟨file, hfile, heq⟩ := StageRun.copyOps_disk (r := r) hdigest hjobs hjob
  refine ⟨file, ?_, ?_⟩
  · rw [StageRun.dagStage, OutputDir.apply_append, ← hplace]
    exact hfile
  · rw [heq, ← hbytes, hdistinct e he e' he' (hplace.symm.trans hplace')]

theorem Inv.pruned (h : Inv root s) (hready : r.Ready root) (hfine : o.Fine) {path : Path}
    (hstaged : path ∈ s.staged) (hplan : path ∉ r.places)
    (hothers : ∀ exe, exe ∉ r.exes → path ∉ s.recorded exe) :
    (s.dir.apply (r.dagStage digest root o s.dir)).disk path = none := by
  by_contra hdisk
  have hafter : Inv root (s.perform r (r.dagStage digest root o s.dir)) :=
    h.copies hready hfine List.prefix_rfl
  obtain ⟨exe, hexe⟩ := hafter.present path (List.mem_append_left _ hstaged) hdisk
  have hrecords : (r.dagStage digest root o s.dir).any FileOp.recordsAll = true :=
    List.any_eq_true.2 ⟨_, List.mem_append_right _ List.mem_cons_self, hfine.2.2⟩
  have hrecorded : (s.perform r (r.dagStage digest root o s.dir)).recorded =
      fun exe => if exe ∈ r.exes then r.records exe else s.recorded exe := if_pos hrecords
  rw [hrecorded] at hexe
  dsimp only at hexe
  by_cases hmem : exe ∈ r.exes
  · exact hplan (StageRun.mem_places_of_records (by rwa [if_pos hmem] at hexe))
  · exact hothers exe hmem (by rwa [if_neg hmem] at hexe)

theorem Inv.kept (h : Inv root s) (hready : r.Ready root) (hfine : o.Fine) {exe path : Path}
    (hexe : exe ∉ r.exes) (hpath : path ∈ s.recorded exe) (ok : Bool) :
    .remove path ok ∉ r.dagStage digest root o s.dir := by
  obtain ⟨hroot, hroot', hmem⟩ := (h.recorded_iff exe path).1 hpath
  have hnext := (StageRun.pair_mem_next hready hroot hroot').2 (by rwa [if_neg hexe])
  intro hop
  rcases List.mem_append.1 hop with hop | hop
  · rcases List.mem_append.1 hop with hop | hop
    · obtain ⟨staged, -, hdead, ok', heq⟩ := StageRun.removals_cases hop
      rw [StageRun.read_of_fine hfine] at hdead
      refine hdead (List.mem_map.2 ⟨_, hnext, ?_⟩)
      exact congrArg Path.sub (FileOp.remove.inj heq).1
    · cases List.mem_singleton.1 hop
  · rcases List.mem_cons.1 hop with hop | hop
    · cases hop
    · obtain ⟨job, -, hjob | hjob⟩ := StageRun.mem_copyOps hop
      · cases hjob
      · cases hjob

/-- Whatever earlier runs have built, and wherever they have stopped, a run that ends leaves the
output directory exact, as long as no run has passed over a failure. -/
theorem staging_exact (hdigest : Function.Injective digest) (disk : Path → Option File)
    {events : List (Event T)} {r : StageRun T} {o : Outcomes}
    (hready : ∀ run ∈ runs events ++ [(r, o)], run.1.Ready root)
    (hfine : ∀ run ∈ runs events ++ [(r, o)], run.2.Fine)
    (hdistinct : Distinct r.closures) (hbuilt : ∀ e ∈ r.entries, r.built e.target ≠ none) :
    Exact digest root (after digest root disk events) r o := by
  have hinv : Inv root (after digest root disk events) := inv_after (fun run hrun =>
    ⟨hready run (List.mem_append_left _ hrun), hfine run (List.mem_append_left _ hrun)⟩) disk
  have hlast := hready (r, o) (List.mem_append_right _ List.mem_cons_self)
  have hends := hfine (r, o) (List.mem_append_right _ List.mem_cons_self)
  exact ⟨fun e he => placed_of_ended hdigest hdistinct hbuilt he,
    fun path hstaged hplan hothers => hinv.pruned hlast hends hstaged hplan hothers,
    fun exe hexe path hpath ok => hinv.kept hlast hends hexe hpath ok⟩

end Story

/-- The library of the executable. -/
def libfoo : StageEntry (Fin 2) := ⟨1, ⟨.build, str "debug/libfoo.so"⟩⟩

/-- The executable and its library, and the executable alone after the dependency is gone. -/
def besideRun (libs : List (StageEntry (Fin 2))) : StageRun (Fin 2) where
  closures := [⟨⟨0, ⟨.build, str "debug/tool"⟩⟩, libs⟩]
  built t := some [UInt8.ofNat t.val]
  answers _ := true

/-- Every call of the run succeeds. -/
def fine : Outcomes := ⟨true, fun _ => true, true⟩

/-- A run with the library stopped among its copies, and the next one is without it. -/
theorem staging_exact_tool : Story.Exact id .build (Story.after id .build (fun _ => none)
    [.run (besideRun [libfoo]) fine (some 4)]) (besideRun []) fine := by
  refine Story.staging_exact Function.injective_id _ (fun run hrun => ?_) (fun run hrun => ?_) ?_ ?_
  · obtain rfl | hrun := List.mem_cons.1 hrun
    · exact ⟨by decide, by decide⟩
    · obtain rfl := List.mem_singleton.1 hrun
      exact ⟨by decide, by decide⟩
  · obtain rfl | hrun := List.mem_cons.1 hrun
    · exact ⟨rfl, fun _ => rfl, rfl⟩
    · obtain rfl := List.mem_singleton.1 hrun
      exact ⟨rfl, fun _ => rfl, rfl⟩
  · intro e he e' he' _
    obtain rfl := List.mem_singleton.1 he
    obtain rfl := List.mem_singleton.1 he'
    rfl
  · exact fun _ _ => nofun

/-- What the library's runs and those without it have come to, which all end. -/
def besideStory (ended : List (List (StageEntry (Fin 2)) × Outcomes)) : Story :=
  Story.after id .build (fun _ => none) (ended.map fun run => .run (besideRun run.1) run.2 none)

theorem not_exact_of_left {ended : List (List (StageEntry (Fin 2)) × Outcomes)} {o : Outcomes}
    (hstaged : libfoo.path ∈ (besideStory ended).staged)
    (hleft : ((besideStory ended).dir.apply
      ((besideRun []).dagStage id .build o (besideStory ended).dir)).disk libfoo.path ≠ none) :
    ¬ Story.Exact id .build (besideStory ended) (besideRun []) o := by
  intro h
  refine hleft (h.pruned libfoo.path hstaged (by decide) fun exe hexe => ?_)
  have hplans : ∀ run ∈ Story.runs (ended.map fun run =>
      (.run (besideRun run.1) run.2 none : Event (Fin 2))), exe ∉ run.1.exes := by
    intro run hrun
    obtain ⟨event, hevent, hrun⟩ := List.mem_filterMap.1 hrun
    obtain ⟨run', -, rfl⟩ := List.mem_map.1 hevent
    obtain rfl := Option.some.inj hrun
    exact hexe
  rw [besideStory, Story.recorded_of_no_plan hplans]
  exact List.not_mem_nil

/-- A run without the library ends and leaves it, although nothing names it any more: where its
removal fails, in that run and in every later one, where the manifest cannot be read, and where
the run that staged it has failed to write the manifest. -/
theorem failures_leave_library :
    let unremoved : Outcomes := ⟨true, fun _ => false, true⟩
    let unread : Outcomes := ⟨false, fun _ => true, true⟩
    let unwritten : Outcomes := ⟨true, fun _ => true, false⟩
    ¬ Story.Exact id .build (besideStory [([libfoo], fine)]) (besideRun []) unremoved ∧
    ¬ Story.Exact id .build (besideStory [([libfoo], fine), ([], unremoved)]) (besideRun []) fine ∧
    ¬ Story.Exact id .build (besideStory [([libfoo], fine)]) (besideRun []) unread ∧
    ¬ Story.Exact id .build (besideStory [([libfoo], unwritten)]) (besideRun []) fine :=
  ⟨not_exact_of_left (by decide +kernel) (by decide +kernel),
    not_exact_of_left (by decide +kernel) (by decide +kernel),
    not_exact_of_left (by decide +kernel) (by decide +kernel),
    not_exact_of_left (by decide +kernel) (by decide +kernel)⟩

end Spn.Link
