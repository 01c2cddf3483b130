import Spn.Glob.Tree

/-! # What rows say of a tree

Two directories with one digest have the same listed members: the text that is hashed is
read back, as every string and every list in it follows its length.
-/
namespace Spn.Glob

open Spn.Lib
open Spn.Lib.Glob (Tok Matches Plain)
open Spn.Dag (Obs ObsKind Node hashU64 hashStr framed_hashU64 framed_hashStr)

/-! ## Reading back what is hashed -/

/-- Sizes that fit their counters. -/
def Small (members : List (Str × UInt8)) : Prop :=
  members.length < 2 ^ 64 ∧ ∀ member ∈ members, member.1.length < 2 ^ 64

/-- A name and the kind after it. -/
theorem framed_member : Framed (fun member : Str × UInt8 => member.1.length < 2 ^ 64)
    fun member => hashStr member.1 ++ [member.2] := by
  have hkind : Framed (fun _ : UInt8 => True) fun kind => [kind] :=
    Framed.single fun a b _ _ h => h
  exact (framed_hashStr.pair hkind).mono fun member h => ⟨h, trivial⟩

theorem listing_injective {a b : List (Str × UInt8)} (ha : Small a) (hb : Small b)
    (h : listing a = listing b) : a = b :=
  (framed_hashU64.counted framed_member).inj ha hb (List.append_cancel_left h)

/-! ## The members that are listed -/

section

variable {S : Sp} {t t' : FileTree} {name : List Tok → Str → Prop}

/-- A member that is seen through a filter. -/
def Sp.Lists (S : Sp) (t : FileTree) (dir : List Str) (filter : Option S.Compiled) (n : Str)
    (kind : Kind) : Prop :=
  t.Has (dir ++ [n]) kind ∧ S.passes filter (n, kind) = true

theorem mem_members {dir : List Str} {filter : Option S.Compiled} {n : Str} {b : UInt8} :
    (n, b) ∈ S.members t dir filter ↔ ∃ kind, S.Lists t dir filter n kind ∧ S.kind kind = b := by
  rw [Sp.members, List.mem_insertionSort, List.mem_map]
  constructor
  · rintro ⟨⟨m, kind⟩, hmem, heq⟩
    cases heq
    obtain ⟨hchild, hpass⟩ := List.mem_filter.1 hmem
    exact ⟨kind, ⟨FileTree.mem_children.1 hchild, hpass⟩, rfl⟩
  · rintro ⟨kind, ⟨hhas, hpass⟩, rfl⟩
    exact ⟨(n, kind), List.mem_filter.2 ⟨FileTree.mem_children.2 hhas, hpass⟩, rfl⟩

theorem small_members (dir : List Str) (filter : Option S.Compiled) :
    Small (S.members t dir filter) := by
  constructor
  · rw [Sp.members, List.length_insertionSort, List.length_map]
    calc ((t.children dir).filter (S.passes filter)).length
        ≤ (t.children dir).length := List.length_filter_le _ _
      _ ≤ (t.beneath dir).length := List.length_filterMap_le _ _
      _ ≤ t.entries.length := List.length_filterMap_le _ _
      _ < 2 ^ 64 := t.small.1
  · rintro ⟨n, b⟩ hmem
    obtain ⟨kind, ⟨⟨node, hnode, -⟩, -⟩, -⟩ := mem_members.1 hmem
    exact t.small.2 _ hnode n (List.mem_append_right _ List.mem_cons_self)

theorem kind_injective (hS : S.Documented name) {a b : Kind} (h : S.kind a = S.kind b) : a = b := by
  cases a <;> cases b
  · rfl
  · exact absurd h hS.kinds
  · exact absurd h.symm hS.kinds
  · rfl

theorem lists_of_members (hS : S.Documented name) {dir : List Str} {filter : Option S.Compiled}
    (h : S.blake3 (listing (S.members t dir filter)) =
      S.blake3 (listing (S.members t' dir filter))) {n : Str} {kind : Kind}
    (hlists : S.Lists t dir filter n kind) : S.Lists t' dir filter n kind := by
  have heq := listing_injective (small_members dir filter) (small_members dir filter)
    (hS.injective h)
  have hmem := heq ▸ mem_members.2 ⟨kind, hlists, rfl⟩
  obtain ⟨kind', hlists', hkind⟩ := mem_members.1 hmem
  rwa [← kind_injective hS hkind]

/-- The filter of a row, compiled. -/
def Sp.filterOf (S : Sp) (filter : Str) : Option S.Compiled :=
  if filter = [] then none else S.globNew filter

/-- Directories of one digest list the same members. -/
theorem lists_of_digest (hS : S.Documented name) {dir : List Str} {filter : Str} {d : S.Digest}
    (h : S.membershipDigest t dir filter = some d) (h' : S.membershipDigest t' dir filter = some d)
    {n : Str} {kind : Kind} :
    S.Lists t dir (S.filterOf filter) n kind ↔ S.Lists t' dir (S.filterOf filter) n kind := by
  have hhash : S.blake3 (listing (S.members t dir (S.filterOf filter))) =
      S.blake3 (listing (S.members t' dir (S.filterOf filter))) := by
    unfold Sp.membershipDigest at h h'
    unfold Sp.filterOf
    split_ifs at h h' ⊢ with hfilter
    · exact Option.some.inj (h.trans h'.symm)
    · cases hnew : S.globNew filter with
      | none => simp [hnew] at h
      | some glob =>
        simp only [hnew] at h h'
        exact Option.some.inj (h.trans h'.symm)
  exact ⟨lists_of_members hS hhash, lists_of_members hS hhash.symm⟩

end

end Spn.Glob
