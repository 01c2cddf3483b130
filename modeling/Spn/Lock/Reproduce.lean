import Spn.Lock.Parse
import Spn.Resolve.Reentry

/-! # What a lock says of its resolution

A lock has one entry for each instance as long as the instances have different names, and
is read back as it was as long as its entries are written in full. An instance from a file
has no paths to write.
-/
namespace Spn.Lock

open Spn.Lib Spn.Lib.Toml
open Spn.Resolve (PkgId PkgSource ResolvedPkg)

/-- The entries of a lock apart from their dependents. -/
def LockFile.bareEntries (lock : LockFile) : List LockEntry :=
  lock.entries.toList.map fun entry => entry.2.bare

/-- The lock has one entry for each instance but the root, and its text is read back as the
same lock. -/
def Reproduces (S : Syntax) (build : Build) (release : PkgId → Index.Release)
    (resolve : Table PkgId ResolvedPkg) (lock : LockFile) : Prop :=
  lock.bareEntries.Perm ((locked resolve).map (lockEntry release)) ∧
  ∃ text, lockToStr S.quote build lock = some text ∧ lockParse S.parse text = some lock

/-- The pointer of a root says nothing without a URL. -/
def Addressed (root : Index.PkgRoot) : Prop := (pointer root).url = [] → pointer root = {}

instance (root : Index.PkgRoot) : Decidable (Addressed root) := by
  unfold Addressed; infer_instance

/-- Every instance but the root is the only one of its name and is from an index, with a
release that has both paths, and no revision or directory without a URL. -/
structure Lockable (release : PkgId → Index.Release) (resolve : Table PkgId ResolvedPkg) :
    Prop where
  names : (locked resolve).Pairwise fun a b => a.id.qualified ≠ b.id.qualified
  indexed : ∀ pkg ∈ locked resolve, pkg.source = .index
  source : ∀ pkg ∈ locked resolve, Addressed (release pkg.id).source
  manifest : ∀ pkg ∈ locked resolve, Addressed (release pkg.id).manifest
  paths : ∀ pkg ∈ locked resolve,
    (release pkg.id).paths.manifest ≠ [] ∧ (release pkg.id).paths.script ≠ []

/-! ## The entries of a lock -/

section

variable {release : PkgId → Index.Release} {order : Order} {resolve : Table PkgId ResolvedPkg}

theorem lockEntry_name (pkg : ResolvedPkg) : (lockEntry release pkg).name = pkg.id.qualified := by
  unfold lockEntry
  cases pkg.source <;> rfl

theorem lockEntry_version (pkg : ResolvedPkg) :
    (lockEntry release pkg).version = pkg.id.version := by
  unfold lockEntry
  cases pkg.source <;> rfl

theorem bare_lockEntry (pkg : ResolvedPkg) :
    (lockEntry release pkg).bare = lockEntry release pkg := by
  unfold lockEntry
  cases pkg.source <;> rfl

/-- Only the entry of an instance from an index is written in full. -/
theorem readable_lockEntry (pkg : ResolvedPkg) : (lockEntry release pkg).Readable ↔
    pkg.source = .index ∧ Addressed (release pkg.id).source ∧
      Addressed (release pkg.id).manifest ∧
      (release pkg.id).paths.manifest ≠ [] ∧ (release pkg.id).paths.script ≠ [] := by
  unfold lockEntry
  cases pkg.source with
  | index => exact ⟨fun h => ⟨rfl, h.1, h.2, h.3⟩, fun h => ⟨h.2.1, h.2.2.1, h.2.2.2⟩⟩
  | root | file => exact ⟨fun h => absurd rfl h.3.1, fun h => by cases h.1⟩

/-- The instances in the order the lock is built in. -/
def lockedIn (order : Order) (resolve : Table PkgId ResolvedPkg) : List ResolvedPkg :=
  ((order.list resolve.toList).map Prod.snd).filter fun pkg => pkg.source ≠ .root

theorem lockedIn_perm : (lockedIn order resolve).Perm (locked resolve) :=
  ((order.perm _).map _).filter _

theorem names_lockedIn
    (h : (locked resolve).Pairwise fun a b => a.id.qualified ≠ b.id.qualified) :
    (lockedIn order resolve).Pairwise fun a b => a.id.qualified ≠ b.id.qualified :=
  (lockedIn_perm.pairwise_iff fun hne => hne.symm).2 h

/-- The lock before the dependents are named. -/
def entriesLock (release : PkgId → Index.Release) (pkgs : List ResolvedPkg) : LockFile :=
  (pkgs.map (lockEntry release)).foldl LockFile.insert LockFile.init

theorem buildLock_eq : buildLock release order resolve =
    (entriesLock release (lockedIn order resolve)).buildDependents := by
  have hfold : ∀ (entries : List (PkgId × ResolvedPkg)) (lock : LockFile),
      entries.foldl (fun lock entry =>
        if entry.2.source = .root then lock else lock.insert (lockEntry release entry.2)) lock =
      (((entries.map Prod.snd).filter fun pkg => pkg.source ≠ .root).map
        (lockEntry release)).foldl LockFile.insert lock := by
    intro entries
    induction entries with
    | nil => exact fun lock => rfl
    | cons entry rest ih =>
      intro lock
      rw [List.foldl_cons, List.map_cons, List.filter_cons, ih]
      by_cases h : entry.2.source = .root <;> simp [h]
  exact congrArg LockFile.buildDependents (hfold _ _)

/-- Every entry is the one of an instance. -/
theorem mem_entriesLock {pkgs : List ResolvedPkg} {name : Str} {entry : LockEntry}
    (h : (entriesLock release pkgs).entries[name]? = some entry) :
    ∃ pkg ∈ pkgs, lockEntry release pkg = entry := by
  have hfold : ∀ (entries : List LockEntry) (lock : LockFile),
      (entries.foldl LockFile.insert lock).entries[name]? = some entry →
        entry ∈ entries ∨ lock.entries[name]? = some entry := by
    intro entries
    induction entries with
    | nil => exact fun lock h => .inr h
    | cons first rest ih =>
      intro lock h
      rcases ih _ h with hmem | hget
      · exact .inl (List.mem_cons_of_mem _ hmem)
      · rcases (Table.getElem?_insert_eq_some _).1 hget with ⟨-, rfl⟩ | ⟨-, hget⟩
        · exact .inl List.mem_cons_self
        · exact .inr hget
  rcases hfold _ _ h with hmem | hget
  · exact List.mem_map.1 hmem
  · simp [LockFile.init] at hget

theorem bare_entriesLock {pkgs : List ResolvedPkg} {name : Str} {entry : LockEntry}
    (h : (entriesLock release pkgs).entries[name]? = some entry) : entry.bare = entry := by
  obtain ⟨pkg, -, rfl⟩ := mem_entriesLock h
  exact bare_lockEntry pkg

/-- Where the names are different no entry overwrites another. -/
theorem getElem?_entriesLock {pkgs : List ResolvedPkg}
    (h : pkgs.Pairwise fun a b => a.id.qualified ≠ b.id.qualified) {pkg : ResolvedPkg}
    (hmem : pkg ∈ pkgs) :
    (entriesLock release pkgs).entries[pkg.id.qualified]? = some (lockEntry release pkg) := by
  refine (LockFile.getElem?_foldl_insert ?_ LockFile.init _ _).2
    (.inl ⟨List.mem_map_of_mem hmem, lockEntry_name pkg⟩)
  simpa only [List.pairwise_map, lockEntry_name] using h

namespace LockFile

variable {lock : LockFile}

theorem mem_bareEntries {entry : LockEntry} :
    entry ∈ lock.bareEntries ↔ lock.bare[entry.name]? = some entry := by
  rw [getElem?_bare, Option.map_eq_some_iff]
  constructor
  · intro h
    obtain ⟨⟨name, full⟩, hmem, rfl⟩ := List.mem_map.1 h
    have hget := lock.entries.mem_toList_iff.1 hmem
    have hname : full.bare.name = name := lock.own name full hget
    exact ⟨full, by rwa [hname], rfl⟩
  · rintro ⟨full, hget, rfl⟩
    exact List.mem_map.2 ⟨(full.name, full), lock.entries.mem_toList_iff.2 hget, rfl⟩

theorem bareEntries_distinct (lock : LockFile) :
    lock.bareEntries.Pairwise fun a b => a.name ≠ b.name :=
  List.pairwise_map.2 ((List.pairwise_map.1 lock.entries_distinct).imp fun hne => hne)

end LockFile

theorem nodup_of_names {entries : List LockEntry}
    (h : entries.Pairwise fun a b => a.name ≠ b.name) : entries.Nodup :=
  h.imp fun hne heq => hne (congrArg LockEntry.name heq)

/-- There is an entry for each instance exactly when their names are different. -/
theorem bareEntries_buildLock :
    (buildLock release order resolve).bareEntries.Perm
        ((locked resolve).map (lockEntry release)) ↔
      (locked resolve).Pairwise fun a b => a.id.qualified ≠ b.id.qualified := by
  have hnames : ((locked resolve).map (lockEntry release)).Pairwise (fun a b => a.name ≠ b.name) ↔
      (locked resolve).Pairwise fun a b => a.id.qualified ≠ b.id.qualified := by
    simp only [List.pairwise_map, lockEntry_name]
  constructor
  · intro hperm
    exact hnames.1 ((hperm.pairwise_iff fun h => h.symm).1 (LockFile.bareEntries_distinct _))
  · intro hdistinct
    refine (List.perm_ext_iff_of_nodup (nodup_of_names (LockFile.bareEntries_distinct _))
      (nodup_of_names (hnames.2 hdistinct))).2 fun entry => ?_
    rw [LockFile.mem_bareEntries, buildLock_eq, (LockFile.buildDependents_spec _).1,
      LockFile.getElem?_bare, Option.map_eq_some_iff]
    constructor
    · rintro ⟨full, hfull, hbare⟩
      obtain ⟨pkg, hmem, rfl⟩ := mem_entriesLock hfull
      rw [← hbare, bare_lockEntry]
      exact List.mem_map_of_mem (lockedIn_perm.mem_iff.1 hmem)
    · intro hmem
      obtain ⟨pkg, hpkg, rfl⟩ := List.mem_map.1 hmem
      rw [lockEntry_name]
      exact ⟨_, getElem?_entriesLock (names_lockedIn hdistinct) (lockedIn_perm.mem_iff.2 hpkg),
        bare_lockEntry pkg⟩

/-! ## The lock read back -/

namespace LockFile

variable {lock : LockFile}

theorem getElem?_read_bare (name : Str) :
    lock.read.entries[name]? = lock.bare[name]?.map LockEntry.read := by
  rw [getElem?_read, getElem?_bare, Option.map_map]
  rfl

/-- The lock is read back as it was exactly when each entry is written in full. -/
theorem read_buildDependents (hbare : ∀ (name : Str) (entry : LockEntry),
    lock.entries[name]? = some entry → entry.bare = entry) :
    lock.buildDependents.read.buildDependents = lock.buildDependents ↔
      ∀ (name : Str) (entry : LockEntry), lock.entries[name]? = some entry →
        entry.Readable := by
  have hread : ∀ name : Str, lock.buildDependents.read.entries[name]? =
      lock.entries[name]?.map LockEntry.read := by
    intro name
    rw [getElem?_read_bare, (buildDependents_spec lock).1, ← getElem?_read_bare, getElem?_read]
  constructor
  · intro heq name entry hget
    have htables : lock.buildDependents.read.bare = lock.bare := by
      rw [← (buildDependents_spec _).1, heq, (buildDependents_spec _).1]
    have hat := congrArg (fun t : Table Str LockEntry => t[name]?) htables
    simp only [getElem?_bare, hread, hget, Option.map_some, Option.some.injEq] at hat
    exact LockEntry.read_eq_bare.1 hat
  · intro hreadable
    have hsame : lock.buildDependents.read = lock := by
      refine LockFile.ext ?_ (buildDependents_spec lock).2
      refine Std.ExtTreeMap.ext_getElem? fun name => ?_
      rw [hread]
      cases hget : lock.entries[name]? with
      | none => rfl
      | some entry =>
        rw [Option.map_some, LockEntry.read_eq_bare.2 (hreadable _ _ hget), hbare _ _ hget]
    rw [hsame]

end LockFile

/-- Given a parser that reads what is written, a lock reproduces its resolution exactly
when the resolution is lockable. -/
theorem lock_reproduces_iff {S : Syntax} {build : Build}
    (hreads : S.Reads (lockDoc build (buildLock release order resolve)))
    (hfits : ∀ pkg ∈ locked resolve, pkg.id.version.Fits) :
    Reproduces S build release resolve (buildLock release order resolve) ↔
      Lockable release resolve := by
  have hentry : ∀ {name : Str} {entry : LockEntry},
      (entriesLock release (lockedIn order resolve)).entries[name]? = some entry →
      ∃ pkg ∈ locked resolve, lockEntry release pkg = entry := by
    intro name entry h
    obtain ⟨pkg, hmem, heq⟩ := mem_entriesLock h
    exact ⟨pkg, lockedIn_perm.mem_iff.1 hmem, heq⟩
  have hversions : ∀ entry ∈ (buildLock release order resolve).entries.toList.map Prod.snd,
      entry.version.Fits := by
    intro entry hmem
    have hbare := congrArg (Option.map LockEntry.bare) ((LockFile.mem_entries _ entry).1 hmem)
    rw [← LockFile.getElem?_bare, buildLock_eq, (LockFile.buildDependents_spec _).1,
      LockFile.getElem?_bare, Option.map_some, Option.map_eq_some_iff] at hbare
    obtain ⟨full, hfull, heq⟩ := hbare
    obtain ⟨pkg, hpkg, rfl⟩ := hentry hfull
    have hversion : entry.version = pkg.id.version :=
      (congrArg LockEntry.version heq).symm.trans (lockEntry_version pkg)
    exact hversion ▸ hfits pkg hpkg
  have hround : (∃ text, lockToStr S.quote build (buildLock release order resolve) = some text ∧
      lockParse S.parse text = some (buildLock release order resolve)) ↔
      ∀ (name : Str) (entry : LockEntry),
        (entriesLock release (lockedIn order resolve)).entries[name]? = some entry →
          entry.Readable := by
    rw [lockToStr_eq, ← LockFile.read_buildDependents fun _ _ => bare_entriesLock, ← buildLock_eq]
    simp only [Option.some.injEq, exists_eq_left', lockParse_text hreads hversions]
  rw [Reproduces, bareEntries_buildLock, hround]
  constructor
  · rintro ⟨hnames, hreadable⟩
    have hall : ∀ pkg ∈ locked resolve, (lockEntry release pkg).Readable := fun pkg hmem =>
      hreadable _ _ (getElem?_entriesLock (names_lockedIn hnames) (lockedIn_perm.mem_iff.2 hmem))
    have hfields := fun pkg hmem => (readable_lockEntry pkg).1 (hall pkg hmem)
    exact ⟨hnames, fun pkg hmem => (hfields pkg hmem).1, fun pkg hmem => (hfields pkg hmem).2.1,
      fun pkg hmem => (hfields pkg hmem).2.2.1, fun pkg hmem => (hfields pkg hmem).2.2.2⟩
  · intro h
    refine ⟨h.names, fun name entry hget => ?_⟩
    obtain ⟨pkg, hmem, rfl⟩ := hentry hget
    exact (readable_lockEntry pkg).2 ⟨h.indexed pkg hmem, h.source pkg hmem, h.manifest pkg hmem,
      h.paths pkg hmem⟩

end

/-! ## A package in two versions -/

section

open Spn.Resolve (DepKind Hashing Listing Registry Req resolveFromSolver plainResolver rootPkg
  builtWith anyVersion major)

/-- The instances of a root that takes some packages from the index: x, which is built with
y 1, and y. -/
def taking (reqs : List Req) : Resolve.Verdict × Resolve.Solved :=
  resolveFromSolver (plainResolver builtWith []) .byKey .numbering 20
    (Registry.empty.insert (rootPkg reqs)) [.ofRoot]

/-- What the releases of the index have besides. -/
def fetched (pkg : PkgId) : Index.Release where
  id := ⟨str "core", pkg.qualified⟩
  version := pkg.version
  yanked := false
  source := .git (str "u") (str "r") []
  manifest := .none
  paths := ⟨str "spn.toml", str "spn.c"⟩
  deps := []
  targets := []
  options := .empty

/-- The syntax in which one text says one thing. -/
def only (doc : Doc) : Syntax where
  quote s := [0x22] ++ (s ++ [0x22])
  parse text := if text = doc.text (fun s => [0x22] ++ (s ++ [0x22])) then some doc else none

theorem reads_only (doc : Doc) : (only doc).Reads doc := if_pos rfl

/-- A package with what it is built with is locked. -/
theorem lock_reproduces_builtWith : ∃ solved,
    taking [.ofIndex "x" anyVersion .package] = (.ok, solved) ∧
    (locked solved.run.result).length = 2 ∧
    ∃ order S, Reproduces S ⟨str "0.1.0", str "c"⟩ fetched solved.run.result
      (buildLock fetched order solved.run.result) := by
  have hok : (taking [.ofIndex "x" anyVersion .package]).1 = .ok := by decide +kernel
  refine ⟨_, Prod.ext hok rfl, by decide +kernel, ⟨id, fun _ => List.Perm.refl _⟩,
    only (lockDoc ⟨str "0.1.0", str "c"⟩ (buildLock fetched ⟨id, fun _ => List.Perm.refl _⟩
      (taking [.ofIndex "x" anyVersion .package]).2.run.result)), ?_⟩
  exact (lock_reproduces_iff (reads_only _) (by decide +kernel)).2
    ⟨by decide +kernel, by decide +kernel, by decide +kernel, by decide +kernel, by decide +kernel⟩

/-- Where the root takes y 2 and x is built with y 1, the lock has one y. -/
theorem lock_collapses : ∃ solved,
    taking [.ofIndex "x" anyVersion .package, .ofIndex "y" (major 2) .package] = (.ok, solved) ∧
    ∀ S build release order, ¬Reproduces S build release solved.run.result
      (buildLock release order solved.run.result) := by
  have hok : (taking [.ofIndex "x" anyVersion .package, .ofIndex "y" (major 2) .package]).1 =
    .ok := by decide +kernel
  refine ⟨_, Prod.ext hok rfl, fun S build release order h => ?_⟩
  exact absurd (bareEntries_buildLock.1 h.1) (by decide +kernel)

end

end Spn.Lock
