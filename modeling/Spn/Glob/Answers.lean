import Spn.Glob.Determined

/-! # What a row answers

The digest that a row resolves to tells what stands at its path, or for an enumeration what
its members are. It does not tell an empty directory from none.
-/
namespace Spn.Glob

open Spn.Lib.Glob (Tok)
open Spn.Dag (Obs ObsKind Node)

section

variable (S : Sp) (t t' : FileTree)

/-- The same stands at a path in two trees: nothing, a file of the same bytes, or a directory
of the same members. -/
def SameAt (place : List Str) : Prop :=
  match t.node place, t'.node place with
  | none, none => True
  | some (.file bytes), some (.file bytes') => bytes = bytes'
  | some .dir, some .dir => ∀ n kind, t.Has (place ++ [n]) kind ↔ t'.Has (place ++ [n]) kind
  | _, _ => False

/-- A file stands where the other tree has a directory, and holds the text that is hashed of
the directory's members. -/
def Sp.Spoofs (place : List Str) : Prop :=
  t.node place = some (.file (listing (S.members t' place none))) ∧ t'.node place = some .dir

/-- What a row answers is the same in two trees. -/
def Sp.SameAnswer (o : Obs) : Prop :=
  match o.kind with
  | .enumeration => ∀ n kind, S.Lists t (place o.path) (S.filterOf o.filter) n kind ↔
      S.Lists t' (place o.path) (S.filterOf o.filter) n kind
  | _ => SameAt t t' (place o.path)

end

variable {S : Sp} {t t' : FileTree} {name : List Tok → Str → Prop}

/-! ## Paths -/

theorem stat_eq_ok {place : List Str} {node : Node} :
    t.stat place = .ok node ↔ t.node place = some node := by
  cases h : t.node place <;> simp [FileTree.stat, h]

theorem lists_none {dir : List Str} {n : Str} {kind : Kind} :
    S.Lists t dir none n kind ↔ t.Has (dir ++ [n]) kind := by
  have hpass : S.passes none (n, kind) = true := by cases kind <;> rfl
  exact and_iff_left hpass

theorem membershipDigest_nil (place : List Str) :
    S.membershipDigest t place [] = some (S.blake3 (listing (S.members t place none))) :=
  if_pos rfl

theorem resolveNode_eq (place : List Str) : S.resolveNode t place =
    match t.node place with
    | none => none
    | some (.file bytes) => some (S.blake3 bytes)
    | some .dir => some (S.blake3 (listing (S.members t place none))) := by
  cases h : t.node place with
  | none => simp [Sp.resolveNode, FileTree.stat, h]
  | some node =>
    rw [Sp.resolveNode, stat_eq_ok.2 h]
    cases node with
    | file bytes => rfl
    | dir => exact membershipDigest_nil place

/-- The digest of a path with something at it is that of what is there; only a row for an
absent path has one where there is nothing, and it is zero. -/
theorem resolveOne_of_ne {o : Obs} (ho : o.kind ≠ .enumeration) {d : S.Digest}
    (h : S.resolveOne t o = some d) : S.resolveNode t (place o.path) = some d ∨
      t.node (place o.path) = none ∧ d = S.zero := by
  cases hkind : o.kind with
  | enumeration => exact absurd hkind ho
  | file =>
    simp only [Sp.resolveOne, hkind] at h
    exact .inl h
  | absent =>
    simp only [Sp.resolveOne, hkind] at h
    cases hnode : t.node (place o.path) with
    | some node =>
      rw [stat_eq_ok.2 hnode] at h
      exact .inl h
    | none =>
      simp only [FileTree.stat, hnode] at h
      split_ifs at h
      exact .inr ⟨rfl, (Option.some.inj h).symm⟩

/-! ## Digests tell answers apart -/

theorem sameAt_of_resolveNode (hS : S.Documented name) {at_ : List Str} {d : S.Digest}
    (h : S.resolveNode t at_ = some d) (h' : S.resolveNode t' at_ = some d)
    (hno : ¬S.Spoofs t t' at_) (hno' : ¬S.Spoofs t' t at_) : SameAt t t' at_ := by
  rw [resolveNode_eq] at h h'
  unfold SameAt
  cases hnode : t.node at_ with
  | none => rw [hnode] at h; cases h
  | some node =>
    cases hnode' : t'.node at_ with
    | none => rw [hnode'] at h'; cases h'
    | some node' =>
      rw [hnode] at h
      rw [hnode'] at h'
      cases node with
      | file bytes =>
        have hd : S.blake3 bytes = d := Option.some.inj h
        cases node' with
        | file bytes' => exact hS.injective (hd.trans (Option.some.inj h').symm)
        | dir =>
          have hbytes := hS.injective (hd.trans (Option.some.inj h').symm)
          exact hno ⟨by rw [hnode, hbytes], hnode'⟩
      | dir =>
        have hd : S.blake3 (listing (S.members t at_ none)) = d := Option.some.inj h
        cases node' with
        | file bytes' =>
          have hbytes := hS.injective ((Option.some.inj h').trans hd.symm)
          exact hno' ⟨by rw [hnode', hbytes], hnode⟩
        | dir =>
          intro n kind
          have hiff : S.Lists t at_ none n kind ↔ S.Lists t' at_ none n kind := lists_of_digest hS
            ((membershipDigest_nil (t := t) at_).trans h)
            ((membershipDigest_nil (t := t') at_).trans h')
          exact (lists_none.symm.trans hiff).trans lists_none

/-- A row that resolves to one digest in two trees answers the same in both, unless a file
of one spoofs a directory of the other. -/
theorem rows_separate (hS : S.Documented name) {o : Obs} (h : S.Same t t' o)
    (hno : o.kind ≠ .enumeration → ¬S.Spoofs t t' (place o.path) ∧ ¬S.Spoofs t' t (place o.path)) :
    S.SameAnswer t t' o := by
  obtain ⟨d, hd, hd'⟩ := h
  by_cases ho : o.kind = .enumeration
  · simp only [Sp.resolveOne, ho] at hd hd'
    simp only [Sp.SameAnswer, ho]
    exact fun n kind => lists_of_digest hS hd hd'
  · have hgoal : SameAt t t' (place o.path) := by
      rcases resolveOne_of_ne ho hd with hnode | ⟨hnone, rfl⟩
      · rcases resolveOne_of_ne ho hd' with hnode' | ⟨-, rfl⟩
        · exact sameAt_of_resolveNode hS hnode hnode' (hno ho).1 (hno ho).2
        · exact absurd hnode (resolveNode_ne_zero hS _)
      · rcases resolveOne_of_ne ho hd' with hnode' | ⟨hnone', -⟩
        · exact absurd hnode' (resolveNode_ne_zero hS _)
        · simp [SameAt, hnone, hnone']
    cases hkind : o.kind with
    | enumeration => exact absurd hkind ho
    | file | absent => simpa only [Sp.SameAnswer, hkind] using hgoal

/-! ## An empty directory -/

/-- A tree of one empty directory. -/
def oneDir : FileTree where
  entries := [([str "d"], .dir)]
  distinct := by decide +kernel
  named := by decide +kernel
  parents := by decide +kernel
  small := by decide +kernel

def rowOfA : Obs := ⟨.file, ⟨.project, str "a.c"⟩, []⟩

theorem rows_separate_file :
    (globsOf []).SameAnswer oneFile twoFiles rowOfA := by
  have hplace : place rowOfA.path = [str "a.c"] := by decide +kernel
  have hone : oneFile.node [str "a.c"] = some (.file []) := by decide +kernel
  have htwo : twoFiles.node [str "a.c"] = some (.file []) := by decide +kernel
  refine rows_separate (documented_globsOf []) ⟨some [], ?_, ?_⟩ fun _ => ⟨?_, ?_⟩
  · change (globsOf []).resolveNode oneFile (place rowOfA.path) = some (some [])
    rw [resolveNode_eq, hplace, hone]
    rfl
  · change (globsOf []).resolveNode twoFiles (place rowOfA.path) = some (some [])
    rw [resolveNode_eq, hplace, htwo]
    rfl
  · rintro ⟨-, hdir⟩
    rw [hplace, htwo] at hdir
    cases hdir
  · rintro ⟨-, hdir⟩
    rw [hplace, hone] at hdir
    cases hdir

/-- A tree of one file, which holds what is hashed of the members of an empty directory. -/
def listingFile : FileTree where
  entries := [([str "d"], .file (listing []))]
  distinct := by decide +kernel
  named := by decide +kernel
  parents := by decide +kernel
  small := by decide +kernel

/-- The row of an enumeration resolves to one digest where the directory is missing and where
it is empty; that of a file, where a file holds the listing of the directory. -/
theorem missing_equals_empty : ∃ S name, Sp.Documented S name ∧
    (∃ row, row.kind = .enumeration ∧ S.Same noFile oneDir row ∧
      noFile.node (place row.path) = none ∧ oneDir.node (place row.path) = some .dir) ∧
    ∃ row, S.Same listingFile oneDir row ∧ ¬S.SameAnswer listingFile oneDir row := by
  have hplace : place ⟨.project, str "d"⟩ = [str "d"] := by decide +kernel
  have hdir : oneDir.node [str "d"] = some .dir := by decide +kernel
  have hfile : listingFile.node [str "d"] = some (.file (listing [])) := by decide +kernel
  have hempty : (globsOf []).members oneDir [str "d"] none = [] := by
    rw [Sp.members, show oneDir.children [str "d"] = [] by decide +kernel]
    rfl
  refine ⟨globsOf [], _, documented_globsOf [],
    ⟨⟨.enumeration, ⟨.project, str "d"⟩, []⟩, rfl, ⟨some (listing []), ?_, ?_⟩, by decide +kernel,
      by decide +kernel⟩,
    ⟨.file, ⟨.project, str "d"⟩, []⟩, ⟨some (listing []), ?_, ?_⟩, fun h => ?_⟩
  · exact membershipDigest_nil _
  · refine (membershipDigest_nil _).trans ?_
    rw [hplace, hempty]
    rfl
  · change (globsOf []).resolveNode listingFile (place ⟨.project, str "d"⟩) = some (some (listing []))
    rw [resolveNode_eq, hplace, hfile]
    rfl
  · change (globsOf []).resolveNode oneDir (place ⟨.project, str "d"⟩) = some (some (listing []))
    rw [resolveNode_eq, hplace, hdir]
    change some ((globsOf []).blake3 (listing ((globsOf []).members oneDir [str "d"] none))) = _
    rw [hempty]
    rfl
  · change SameAt listingFile oneDir (place ⟨.project, str "d"⟩) at h
    rw [SameAt, hplace, hfile, hdir] at h
    exact h

end Spn.Glob
