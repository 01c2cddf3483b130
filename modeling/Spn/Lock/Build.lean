import Spn.Index.Release

/-! # The lock of a resolution

`spn_build_lock_file` of `lock/lock.c`. The entries of a lock are kept by name. The
resolution is what the resolver leaves; of the release an instance points at, which the
resolver keeps only in part, the lock takes the rest.
-/
namespace Spn.Lock

open Spn.Lib
open Spn.Resolve (PkgId PkgSource ResolvedPkg)
open Spn.Index (PkgRoot RelPaths)

/-- Where a tree is fetched from. -/
structure Pointer where
  url : Str := []
  rev : Str := []
  dir : Str := []
  deriving DecidableEq, Repr

/-- `spn_lock_entry_t`. The dependents are pushed in the order of a hash table, which is
none. -/
@[ext] structure LockEntry where
  name : Str
  version : Version
  commit : Str
  kind : PkgSource
  source : Pointer
  manifest : Pointer
  paths : RelPaths
  deps : List Str
  dependents : Multiset Str
  deriving DecidableEq

/-- `spn_lock_file_t`: the entries by their names, and the system dependencies. -/
@[ext] structure LockFile where
  entries : Table Str LockEntry
  own : ∀ (name : Str) (entry : LockEntry), entries[name]? = some entry → entry.name = name
  systemDeps : Table Str Unit

namespace LockFile

/-- `spn_lock_file_init`. -/
def init : LockFile := ⟨∅, by simp, ∅⟩

/-- `sp_ht_insert(lock->entries, entry.name, entry)`. -/
def insert (lock : LockFile) (entry : LockEntry) : LockFile where
  entries := lock.entries.insert entry.name entry
  own name e h := by
    rcases (Table.getElem?_insert_eq_some _).1 h with ⟨rfl, rfl⟩ | ⟨-, h⟩
    · rfl
    · exact lock.own _ _ h
  systemDeps := lock.systemDeps

/-- The inner loop of `spn_lock_build_dependents`, for one dependency of an entry. -/
def pushDependent (lock : LockFile) (dep name : Str) : LockFile :=
  match lock.entries[dep]? with
  | none => lock
  | some entry => lock.insert { entry with dependents := name ::ₘ entry.dependents }

/-- `spn_lock_build_dependents`. -/
def buildDependents (lock : LockFile) : LockFile :=
  lock.entries.toList.foldl (fun lock entry =>
    entry.2.deps.foldl (fun lock dep => lock.pushDependent dep entry.2.name) lock) lock

end LockFile

/-- The order a hash table lists its entries in. -/
structure Order where
  list : List (PkgId × ResolvedPkg) → List (PkgId × ResolvedPkg)
  perm : ∀ entries, (list entries).Perm entries

/-- What an entry has of a root. -/
def pointer : PkgRoot → Pointer
  | .git url rev dir => ⟨url, rev, dir⟩
  | .none | .loc _ => {}

/-- The entry of an instance. -/
def lockEntry (release : PkgId → Index.Release) (pkg : ResolvedPkg) : LockEntry :=
  let entry : LockEntry := {
    name := pkg.id.qualified
    version := pkg.id.version
    commit := []
    kind := pkg.source
    source := {}
    manifest := {}
    paths := ⟨[], []⟩
    deps := pkg.deps.map fun dep => dep.qualified
    dependents := 0 }
  match pkg.source with
  | .index =>
    { entry with
      commit := (pointer (release pkg.id).source).rev
      source := pointer (release pkg.id).source
      manifest := pointer (release pkg.id).manifest
      paths := (release pkg.id).paths }
  | .root | .file => entry

/-- `spn_build_lock_file`: the instances but the root, as they are listed. -/
def buildLock (release : PkgId → Index.Release) (order : Order)
    (resolve : Table PkgId ResolvedPkg) : LockFile :=
  ((order.list resolve.toList).foldl (fun lock entry =>
    if entry.2.source = .root then lock else lock.insert (lockEntry release entry.2))
    LockFile.init).buildDependents

/-- The instances of a resolution that a lock is about. -/
def locked (resolve : Table PkgId ResolvedPkg) : List ResolvedPkg :=
  (resolve.toList.map Prod.snd).filter fun pkg => pkg.source ≠ .root

/-! ## Dependents -/

/-- An entry apart from its dependents. -/
def LockEntry.bare (entry : LockEntry) : LockEntry := { entry with dependents := 0 }

namespace LockFile

/-- The entries apart from their dependents. -/
def bare (lock : LockFile) : Table Str LockEntry := lock.entries.map fun _ entry => entry.bare

theorem getElem?_bare (lock : LockFile) (name : Str) :
    lock.bare[name]? = lock.entries[name]?.map LockEntry.bare := by
  simp [bare]

theorem bare_pushDependent (lock : LockFile) (dep name : Str) :
    (lock.pushDependent dep name).bare = lock.bare := by
  unfold pushDependent
  cases h : lock.entries[dep]? with
  | none => rfl
  | some entry =>
    have hname := lock.own _ _ h
    refine Std.ExtTreeMap.ext_getElem? fun k => ?_
    rw [getElem?_bare, getElem?_bare]
    by_cases hk : k = dep
    · subst hk
      simp only [insert, hname, Table.getElem?_insert_self, h, Option.map_some]
      simp only [LockEntry.bare, hname]
    · simp only [insert, hname, Table.getElem?_insert_of_ne _ hk]

theorem systemDeps_pushDependent (lock : LockFile) (dep name : Str) :
    (lock.pushDependent dep name).systemDeps = lock.systemDeps := by
  unfold pushDependent
  split <;> rfl

/-- Naming the dependents changes nothing else of a lock. -/
theorem buildDependents_spec (lock : LockFile) :
    lock.buildDependents.bare = lock.bare ∧ lock.buildDependents.systemDeps = lock.systemDeps := by
  unfold buildDependents
  generalize lock.entries.toList = entries
  induction entries generalizing lock with
  | nil => exact ⟨rfl, rfl⟩
  | cons entry rest ih =>
    have hinner : ∀ (deps : List Str) (lock : LockFile),
        (deps.foldl (fun lock dep => lock.pushDependent dep entry.2.name) lock).bare = lock.bare ∧
        (deps.foldl (fun lock dep => lock.pushDependent dep entry.2.name) lock).systemDeps =
          lock.systemDeps := by
      intro deps
      induction deps with
      | nil => exact fun lock => ⟨rfl, rfl⟩
      | cons dep deps ihdeps =>
        intro lock
        obtain ⟨hbare, hsystem⟩ := ihdeps (lock.pushDependent dep entry.2.name)
        exact ⟨hbare.trans (bare_pushDependent _ _ _),
          hsystem.trans (systemDeps_pushDependent _ _ _)⟩
    obtain ⟨hbare, hsystem⟩ := ih
      (entry.2.deps.foldl (fun lock dep => lock.pushDependent dep entry.2.name) lock)
    exact ⟨hbare.trans (hinner _ _).1, hsystem.trans (hinner _ _).2⟩

end LockFile

end Spn.Lock
