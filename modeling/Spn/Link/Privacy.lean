import Spn.Link.Exact

/-! # The private flag of a linked package

`collect` gives a package the flag of the way on which it meets the package first.
-/
namespace Spn.Link

open Spn.Lib Spn.Lib.PostOrder

namespace Units

variable {P T : Type} [DecidableEq P] [DecidableEq T] (u : Units P T)

/-- A path of followed edges from a package to another. -/
inductive FollowedPath (root : T) : P → List (PkgDep P) → P → Prop
  | nil (p : P) : FollowedPath root p [] p
  | cons {p q : P} {dep : PkgDep P} {path : List (PkgDep P)} : dep ∈ u.follow root p →
      FollowedPath root dep.unit path q → FollowedPath root p (dep :: path) q

/-- The followed path to a package that comes first when dependencies are tried in the
order of their declarations. -/
def FirstPath (root : T) (path : List (PkgDep P)) (p : P) : Prop :=
  (u.linkNet root).First (u.follow root (u.target root).pkg) path p

/-- A path with a private dependency. -/
def Hides (path : List (PkgDep P)) : Prop := ∃ dep ∈ path, dep.isPrivate = true

/-- The flags of the closure of a target do not depend on the order of the walk. -/
def FlagsMean [Fintype P] [Fintype T] (root : T) : Prop :=
  ∀ entry ∈ u.targetLinkClosure root, entry.isPrivate = true ↔
    ∀ path, u.FollowedPath root (u.target root).pkg path entry.pkg → Hides path

section

variable {u} {root : T}

omit [DecidableEq T] in
theorem followedPath_of_first {p q : P} {deps path : List (PkgDep P)}
    (h : (u.linkNet root).First deps path q) (hdeps : ∀ dep ∈ deps, dep ∈ u.follow root p) :
    u.FollowedPath root p path q := by
  induction h generalizing p with
  | here dep deps => exact .cons (hdeps dep List.mem_cons_self) (.nil _)
  | down _ _ ih => exact .cons (hdeps _ List.mem_cons_self) (ih fun _ hdep => hdep)
  | next _ _ ih => exact ih fun dep hdep => hdeps dep (List.mem_cons_of_mem _ hdep)

omit [DecidableEq P] [DecidableEq T] in
theorem foldl_or_isPrivate (path : List (PkgDep P)) (isPrivate : Bool) :
    path.foldl (fun flag dep => flag || dep.isPrivate) isPrivate = true ↔
      isPrivate = true ∨ Hides path := by
  unfold Hides
  induction path generalizing isPrivate with
  | nil => simp
  | cons dep path ih =>
    rw [List.foldl_cons, ih]
    simp [or_assoc]

variable [Fintype P] [Fintype T]

theorem FirstPath.mem_closure (hp : u.PkgAcyclic)
    (hkind : (u.target root).kind ≠ .configureMetaprogram) {path : List (PkgDep P)} {p : P}
    (h : u.FirstPath root path p) :
    p ∈ (u.targetLinkClosure root).map Entry.pkg :=
  (Units.mem_closure hp hkind).2
    (Net.From.transGen (N := u.linkNet root) (Net.First.reaches h)).to_reflTransGen

/-- Past the root, an entry is private if the first path to its package hides it. -/
theorem isPrivate_iff_first (hp : u.PkgAcyclic)
    (hkind : (u.target root).kind ≠ .configureMetaprogram) {entry : Entry P T}
    (hentry : entry ∈ u.targetLinkClosure root) :
    (entry.pkg = (u.target root).pkg ∧ entry.isPrivate = false) ∨
      ∃ path, u.FirstPath root path entry.pkg ∧ (entry.isPrivate = true ↔ Hides path) := by
  obtain ⟨new, seen, horder, hwalk⟩ := collect_walks (u := u) root
  unfold targetLinkClosure at hentry
  simp only [if_neg hkind, horder, List.mem_cons, List.mem_map, List.mem_reverse] at hentry
  obtain rfl | ⟨found, hfound, rfl⟩ := hentry
  · exact .inl ⟨rfl, rfl⟩
  · have hset : Settled (u.linkNet root) (u.follow root (u.target root).pkg)
        [(u.target root).pkg] := by
      intro x hx hfrom
      rw [List.mem_singleton.1 hx] at hfrom
      exact absurd hfrom hp.root_not_from
    obtain ⟨path, hpath, hlabel⟩ := hwalk.first hp.linkNet hset found hfound
    refine .inr ⟨path, hpath, ?_⟩
    have hflag : found.2 = true ↔ false = true ∨ Hides path := by
      rw [hlabel]
      exact foldl_or_isPrivate path false
    simpa using hflag

/-- The flags mean what every path says exactly where the first path says the same. -/
theorem private_flag_order (hp : u.PkgAcyclic) (root : T) :
    u.FlagsMean root ↔ (u.target root).kind = .configureMetaprogram ∨
      ∀ p path, u.FirstPath root path p → Hides path →
        ∀ path', u.FollowedPath root (u.target root).pkg path' p → Hides path' := by
  have hroot : ¬∀ path, u.FollowedPath root (u.target root).pkg path (u.target root).pkg →
      Hides path := by
    intro h
    obtain ⟨dep, hdep, -⟩ := h [] (.nil _)
    exact absurd hdep List.not_mem_nil
  by_cases hkind : (u.target root).kind = .configureMetaprogram
  · refine iff_of_true (fun entry hentry => ?_) (.inl hkind)
    unfold targetLinkClosure at hentry
    simp only [if_pos hkind, List.mem_singleton] at hentry
    subst hentry
    exact iff_of_false (by simp) hroot
  · rw [or_iff_right hkind]
    constructor
    · intro hmean p path hfirst hhides
      obtain ⟨entry, hentry, rfl⟩ := List.mem_map.1 (FirstPath.mem_closure hp hkind hfirst)
      refine (hmean entry hentry).1 ?_
      obtain ⟨hpkg, -⟩ | ⟨path', hfirst', hflag⟩ := isPrivate_iff_first hp hkind hentry
      · have hfrom := Net.First.reaches hfirst
        rw [hpkg] at hfrom
        exact absurd hfrom hp.root_not_from
      · exact hflag.2 (Net.First.unique hfirst hfirst' ▸ hhides)
    · intro hcond entry hentry
      obtain ⟨hpkg, hflag⟩ | ⟨path, hfirst, hflag⟩ := isPrivate_iff_first hp hkind hentry
      · rw [hpkg, hflag]
        exact iff_of_false (by simp) hroot
      · rw [hflag]
        exact ⟨hcond _ path hfirst, fun h => h path (followedPath_of_first hfirst fun _ hdep => hdep)⟩

end

end Units

/-- A program over two packages that share a third; the first of the two is private. -/
def diamond (deps : List (PkgDep (Fin 4))) : Units (Fin 4) (Fin 1) where
  pkg
    | 0 => ⟨deps, []⟩
    | 1 => ⟨[⟨3, .package, false⟩], []⟩
    | 2 => ⟨[⟨3, .package, false⟩], []⟩
    | 3 => ⟨[], []⟩
  target _ := ⟨0, .exe, .none, false, []⟩

/-- Both packages of the diamond, the private one first. -/
def privateFirst : List (PkgDep (Fin 4)) := [⟨1, .package, true⟩, ⟨2, .package, false⟩]

theorem diamond_pkgAcyclic : (diamond privateFirst).PkgAcyclic ∧
    (diamond privateFirst.reverse).PkgAcyclic :=
  ⟨Units.pkgAcyclic_of_rank Fin.val (by decide), Units.pkgAcyclic_of_rank Fin.val (by decide)⟩

theorem private_flag_order_diamond : (diamond privateFirst).FlagsMean 0 ↔
    ((diamond privateFirst).target 0).kind = .configureMetaprogram ∨
      ∀ p path, (diamond privateFirst).FirstPath 0 path p → Units.Hides path →
        ∀ path', (diamond privateFirst).FollowedPath 0 ((diamond privateFirst).target 0).pkg
          path' p → Units.Hides path' :=
  Units.private_flag_order diamond_pkgAcyclic.1 0

/-- With the private package first the shared one is private, though a public path leads
to it; with the dependencies turned around it is not. -/
theorem private_flag_first_visit :
    (diamond privateFirst).PkgAcyclic ∧ ¬(diamond privateFirst).FlagsMean 0 ∧
    ((diamond privateFirst).targetLinkClosure 0).any (fun entry =>
      entry.pkg = 3 && entry.isPrivate) = true ∧
    ((diamond privateFirst.reverse).targetLinkClosure 0).any (fun entry =>
      entry.pkg = 3 && entry.isPrivate) = false := by
  refine ⟨diamond_pkgAcyclic.1, fun h => ?_, by decide, by decide⟩
  have hentry : (⟨3, [], true, true⟩ : Entry (Fin 4) (Fin 1)) ∈
      (diamond privateFirst).targetLinkClosure 0 := by decide
  have hpath : (diamond privateFirst).FollowedPath 0 0
      [⟨2, .package, false⟩, ⟨3, .package, false⟩] 3 :=
    .cons (by decide) (.cons (by decide) (.nil 3))
  obtain ⟨dep, hdep, hprivate⟩ := (h _ hentry).1 rfl _ hpath
  revert hprivate
  revert dep
  decide

end Spn.Link
