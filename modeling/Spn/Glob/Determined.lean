import Spn.Glob.Rows

/-! # Rows determine matches

Two trees that resolve every row of a glob to one digest have the same directories below
the base of the pattern, and the same files there as far as the filter of the rows lets
them through. For a plain pattern it lets every match through.
-/
namespace Spn.Glob

open Spn.Lib
open Spn.Lib.Glob (Tok Matches Plain)
open Spn.Dag (Obs ObsKind Node)

/-- A row resolves to one digest in two trees. -/
def Sp.Same (S : Sp) (t t' : FileTree) (row : Obs) : Prop :=
  ∃ d, S.resolveOne t row = some d ∧ S.resolveOne t' row = some d

/-- A file that the pattern matches and whose name the filter of the rows does not let
through. -/
structure Sp.Overlooks (S : Sp) (t : FileTree) (pattern : Path) (before : List Str) (n : Str) :
    Prop where
  walked : (before ++ [n], .file) ∈
    walked t (place (baseOf pattern)) (parseMeta pattern.sub).deep
  matched : ∃ glob, S.globNew (parseMeta pattern.sub).rest = some glob ∧
    S.globMatch glob (joined (before ++ [n])) = true
  filtered : S.passes (S.filterOf (parseMeta pattern.sub).name) (n, .file) = false

/-- What the rows do not say: of a literal pattern, that a file stands for a directory; of
another one, that a file stands for its base, or that there is a file that it overlooks. -/
def Sp.Unsaid (S : Sp) (t t' : FileTree) (pattern : Path) : Prop :=
  if (parseMeta pattern.sub).literal then t.isFile (place pattern) ≠ t'.isFile (place pattern)
  else t'.openDir (place (baseOf pattern)) = some .notDir ∨
    ¬Plain (parseMeta pattern.sub).rest ∧ ∃ before n, S.Overlooks t' pattern before n ∧
      ¬t.Has (place (baseOf pattern) ++ (before ++ [n])) .file

section

variable {S : Sp} {t t' : FileTree} {name : List Tok → Str → Prop} {pattern : Path}

/-! ## A literal pattern -/

theorem isFile_eq (place : List Str) : t.isFile place =
    match t.stat place with
    | .ok (.file _) => true
    | _ => false := by
  unfold FileTree.isFile FileTree.stat
  cases t.node place with
  | none => rfl
  | some node => cases node <;> rfl

/-- A row of something that is there resolves to a hash. -/
theorem resolveNode_ne_zero (hS : S.Documented name) (at_ : List Str) :
    S.resolveNode t at_ ≠ some S.zero := by
  unfold Sp.resolveNode
  cases t.stat at_ with
  | error e => simp
  | ok node =>
    cases node with
    | file bytes => simpa using hS.nonzero bytes
    | dir => simpa [Sp.membershipDigest] using hS.nonzero _

/-- Where a literal pattern resolves to one digest, its matches are the same unless a file
stands for a directory. -/
theorem globLiteral_eq (hS : S.Documented name) {n : Str} {result : GlobResult}
    (hglob : globLiteral t pattern n = some result)
    (hrows : ∀ row ∈ result.obs, S.Same t t' row) :
    (∃ result', globLiteral t' pattern n = some result' ∧ result'.matched = result.matched ∧
      ∀ row, row ∈ result'.obs ↔ row ∈ result.obs) ↔
      t.isFile (place pattern) = t'.isFile (place pattern) := by
  rw [isFile_eq, isFile_eq]
  unfold globLiteral at hglob ⊢
  cases hstat : t.stat (place pattern) with
  | error e =>
    cases e with
    | notDir => simp [hstat] at hglob
    | notFound =>
      obtain rfl : ⟨[⟨.absent, pattern, []⟩], []⟩ = result := by simpa [hstat] using hglob
      obtain ⟨d, hd, hd'⟩ := hrows _ List.mem_cons_self
      -- nothing that is there has the empty digest
      have hzero : d = S.zero := by simpa [Sp.resolveOne, hstat] using hd.symm
      subst hzero
      cases hstat' : t'.stat (place pattern) with
      | ok node =>
        exact absurd (by simpa [Sp.resolveOne, hstat'] using hd') (resolveNode_ne_zero hS _)
      | error e =>
        cases e with
        | notDir => simp [Sp.resolveOne, hstat'] at hd'
        | notFound => simp
  | ok node =>
    have hrow : ∃ node', t'.stat (place pattern) = .ok node' := by
      have hmem : (⟨.file, pattern, []⟩ : Obs) ∈ result.obs := by
        cases node with
        | file | dir =>
          simp only [hstat, Option.some.injEq] at hglob
          subst hglob
          exact List.mem_cons_self
      obtain ⟨d, -, hd'⟩ := hrows _ hmem
      cases hstat' : t'.stat (place pattern) with
      | ok node' => exact ⟨node', rfl⟩
      | error e => simp [Sp.resolveOne, Sp.resolveNode, hstat'] at hd'
    obtain ⟨node', hstat'⟩ := hrow
    cases node <;> cases node' <;>
      · simp only [hstat, Option.some.injEq] at hglob
        subst hglob
        simp [hstat']

/-! ## The walk below a base -/

/-- Something of a kind below a place is gone through: anything, or a member. -/
theorem mem_walked {base rel : List Str} {kind : Kind} {recursive : Bool} :
    (rel, kind) ∈ walked t base recursive ↔
      rel ≠ [] ∧ (recursive = false → ∃ n, rel = [n]) ∧ t.Has (base ++ rel) kind := by
  cases recursive with
  | true => simp [walked, FileTree.mem_beneath]
  | false =>
    simp only [walked, Bool.false_eq_true, if_false, List.mem_map, true_imp_iff]
    constructor
    · rintro ⟨⟨n, k⟩, hmem, heq⟩
      cases heq
      exact ⟨List.cons_ne_nil _ _, ⟨n, rfl⟩, FileTree.mem_children.1 hmem⟩
    · rintro ⟨-, ⟨n, rfl⟩, hhas⟩
      exact ⟨(n, kind), FileTree.mem_children.2 hhas, rfl⟩

theorem nodup_beneath (place : List Str) : (t.beneath place).Nodup := by
  have hkeys : ((t.beneath place).map Prod.fst).Nodup := by
    have heq : (t.beneath place).map Prod.fst = (t.entries.map Prod.fst).filterMap fun names =>
        if place <+: names ∧ names ≠ place then some (names.drop place.length) else none := by
      rw [FileTree.beneath, List.map_filterMap, List.filterMap_map]
      congr 1
      funext e
      simp only [Function.comp_apply]
      split_ifs <;> rfl
    rw [heq]
    refine t.distinct.filterMap ?_
    intro a b names ha hb
    simp only [Option.mem_def, Option.ite_none_right_eq_some, Option.some.injEq] at ha hb
    obtain ⟨⟨⟨ra, rfl⟩, -⟩, hra⟩ := ha
    obtain ⟨⟨⟨rb, rfl⟩, -⟩, hrb⟩ := hb
    rw [List.drop_left] at hra hrb
    rw [hra, hrb]
  exact hkeys.of_map

theorem nodup_walked (base : List Str) (recursive : Bool) : (walked t base recursive).Nodup := by
  cases recursive with
  | true => exact nodup_beneath base
  | false =>
    refine List.Nodup.map ?_ ((nodup_beneath base).filterMap ?_)
    · rintro ⟨n, k⟩ ⟨m, k'⟩ heq
      simpa using heq
    · rintro ⟨rel, k⟩ ⟨rel', k'⟩ member h h'
      match rel, rel', h, h' with
      | [n], [m], h, h' =>
        cases h
        cases h'
        rfl

theorem before_eq_nil {before : List Str} {n : Str} (h : ∃ m, before ++ [n] = [m]) :
    before = [] := by
  obtain ⟨m, hm⟩ := h
  exact (List.append_eq_singleton_iff.1 hm).elim (fun h => h.1) fun h => by simp at h

theorem has_of_resolveNode {at_ : List Str} (hne : at_ ≠ []) {d : S.Digest}
    (h : S.resolveNode t at_ = some d) : ∃ kind, t.Has at_ kind := by
  cases hnode : t.node at_ with
  | none => simp [Sp.resolveNode, FileTree.stat, hnode] at h
  | some node => exact ⟨_, node, (FileTree.node_eq_some hne).1 hnode, rfl⟩

/-- The rows of a walk of the first tree resolve to the same digests in the second. -/
def Sp.Agree (S : Sp) (t t' : FileTree) (base : Path) (shape : Meta) (glob : S.Compiled) : Prop :=
  ∀ row ∈ (S.collect t base shape glob).obs, S.Same t t' row

namespace Sp.Agree

variable {base : Path} {shape : Meta} {glob : S.Compiled}

theorem lists_base (hS : S.Documented name) (h : S.Agree t t' base shape glob) {n : Str}
    {kind : Kind} : S.Lists t (place base) (S.filterOf shape.name) n kind ↔
      S.Lists t' (place base) (S.filterOf shape.name) n kind := by
  obtain ⟨d, hd, hd'⟩ := h _ List.mem_cons_self
  exact lists_of_digest hS hd hd'

/-- A directory that is gone through lists the same members in both trees. -/
theorem lists_dir (hS : S.Documented name) (h : S.Agree t t' base shape glob)
    (hdeep : shape.deep = true) {rel : List Str} (hne : rel ≠ [])
    (hdir : t.Has (place base ++ rel) .dir) {n : Str} {kind : Kind} :
    S.Lists t (place base ++ rel) (S.filterOf shape.name) n kind ↔
      S.Lists t' (place base ++ rel) (S.filterOf shape.name) n kind := by
  have hwalked : (rel, .dir) ∈ walked t (place base) shape.deep :=
    mem_walked.2 ⟨hne, fun hf => absurd hf (by simp [hdeep]), hdir⟩
  have hrow : rowOf base shape.name (rel, .dir) ∈ (S.collect t base shape glob).obs :=
    List.mem_cons_of_mem _ (List.mem_map_of_mem (List.mem_filter.2 ⟨hwalked, hdeep⟩))
  obtain ⟨d, hd, hd'⟩ := h _ hrow
  have hplace : place (join base (joined rel)) = place base ++ rel := place_join base hne hdir.valid
  simp only [rowOf, Sp.resolveOne, hplace] at hd hd'
  exact lists_of_digest hS hd hd'

/-- Directories are listed through every filter. -/
theorem lists_of_dir {dir : List Str} {n : Str} (filter : Option S.Compiled) :
    S.Lists t dir filter n .dir ↔ t.Has (dir ++ [n]) .dir :=
  ⟨fun h => h.1, fun h => ⟨h, rfl⟩⟩

/-- Below the base both trees have the same directories. -/
theorem has_dir (hS : S.Documented name) (h : S.Agree t t' base shape glob)
    (hdeep : shape.deep = true) {rel : List Str} (hne : rel ≠ []) :
    t.Has (place base ++ rel) .dir ↔ t'.Has (place base ++ rel) .dir := by
  induction rel using List.reverseRecOn with
  | nil => exact absurd rfl hne
  | append_singleton rel n ih =>
    rw [← List.append_assoc]
    by_cases hrel : rel = []
    · subst hrel
      rw [List.append_nil, ← lists_of_dir (S.filterOf shape.name), h.lists_base hS, lists_of_dir]
    · have hlists : t.Has (place base ++ rel) .dir →
          (S.Lists t (place base ++ rel) (S.filterOf shape.name) n .dir ↔
            S.Lists t' (place base ++ rel) (S.filterOf shape.name) n .dir) :=
        fun hdir => h.lists_dir hS hdeep hrel hdir
      constructor
      · intro hhas
        have hparent := FileTree.Has.parent (by rwa [← List.append_assoc]) hrel
        exact ((hlists hparent).1 ⟨hhas, rfl⟩).1
      · intro hhas
        have hparent := FileTree.Has.parent (by rwa [← List.append_assoc]) hrel
        exact ((hlists ((ih hrel).2 hparent)).2 ⟨hhas, rfl⟩).1

/-- They have the same entries as far as the filter of the rows lets them through. -/
theorem has_passing (hS : S.Documented name) (h : S.Agree t t' base shape glob) {rel : List Str}
    {n : Str} (hshallow : shape.deep = false → rel = []) {kind : Kind}
    (hpass : S.passes (S.filterOf shape.name) (n, kind) = true) :
    t.Has (place base ++ (rel ++ [n])) kind ↔ t'.Has (place base ++ (rel ++ [n])) kind := by
  rw [← List.append_assoc]
  by_cases hrel : rel = []
  · subst hrel
    rw [List.append_nil]
    exact ⟨fun hhas => (h.lists_base hS |>.1 ⟨hhas, hpass⟩).1,
      fun hhas => (h.lists_base hS |>.2 ⟨hhas, hpass⟩).1⟩
  · have hdeep : shape.deep = true := by
      by_contra hf
      exact hrel (hshallow (by simpa using hf))
    constructor
    · intro hhas
      have hparent := FileTree.Has.parent (by rwa [← List.append_assoc]) hrel
      exact ((h.lists_dir hS hdeep hrel hparent).1 ⟨hhas, hpass⟩).1
    · intro hhas
      have hparent := FileTree.Has.parent (by rwa [← List.append_assoc]) hrel
      exact ((h.lists_dir hS hdeep hrel ((h.has_dir hS hdeep hrel).2 hparent)).2 ⟨hhas, hpass⟩).1

/-- A file that is matched in the first tree is a file in the second, where its name passes
the filter or not. -/
theorem has_file (hS : S.Documented name) (h : S.Agree t t' base shape glob) {rel : List Str}
    {n : Str} (hwalked : (rel ++ [n], .file) ∈ walked t (place base) shape.deep)
    (hmatch : S.globMatch glob (joined (rel ++ [n])) = true) :
    t'.Has (place base ++ (rel ++ [n])) .file := by
  obtain ⟨hne, hshallow, hhas⟩ := mem_walked.1 hwalked
  have hrow : rowOf base shape.name (rel ++ [n], .file) ∈ (S.collect t base shape glob).obs :=
    List.mem_cons_of_mem _ (List.mem_map_of_mem (List.mem_filter.2 ⟨hwalked, hmatch⟩))
  obtain ⟨d, -, hd'⟩ := h _ hrow
  have hplace : place (join base (joined (rel ++ [n]))) = place base ++ (rel ++ [n]) :=
    place_join base hne hhas.valid
  simp only [rowOf, Sp.resolveOne, hplace] at hd'
  obtain ⟨kind, hkind⟩ := has_of_resolveNode (by simp) hd'
  cases kind with
  | file => exact hkind
  | dir =>
    have hdir : t.Has (place base ++ (rel ++ [n])) .dir :=
      (h.has_passing hS (fun hf => before_eq_nil (hshallow hf)) rfl).2 hkind
    exact nomatch hdir.unique hhas

end Sp.Agree

/-- A match of a plain pattern passes the filter of its rows. -/
theorem passes_of_plain (hS : S.Documented name) {p : Str} {glob : S.Compiled}
    (hnew : S.globNew (parseMeta p).rest = some glob) (hplain : Plain (parseMeta p).rest)
    {before : List Str} {n : Str} (hvalid : ∀ m ∈ before ++ [n], ValidName m)
    (hmatch : S.globMatch glob (joined (before ++ [n])) = true) :
    S.passes (S.filterOf (parseMeta p).name) (n, .file) = true := by
  unfold Sp.filterOf
  split_ifs with hempty
  · rfl
  · cases hfilter : S.globNew (parseMeta p).name with
    | none => rfl
    | some filter =>
      have hwhole := (hS.matches_iff _ _ hnew _ (by simp) hvalid).1 hmatch
      have hlast := matches_name hwhole hplain hempty
      have hn : ∀ m ∈ [n], ValidName m := fun m hm =>
        hvalid m (List.mem_append_right _ hm)
      have hpass := (hS.matches_iff _ _ hfilter _ (List.cons_ne_nil _ _) hn).2 hlast
      rwa [joined_singleton] at hpass

/-- What the rows say is all there is to say: no match of the second tree is overlooked. -/
theorem yielded_iff (hS : S.Documented name) {glob : S.Compiled}
    (hnew : S.globNew (parseMeta pattern.sub).rest = some glob)
    (h : S.Agree t t' (baseOf pattern) (parseMeta pattern.sub) glob)
    (hseen : Plain (parseMeta pattern.sub).rest ∨ ∀ before n, S.Overlooks t' pattern before n →
      t.Has (place (baseOf pattern) ++ (before ++ [n])) .file) (entry : List Str × Kind) :
    (entry ∈ walked t (place (baseOf pattern)) (parseMeta pattern.sub).deep ∧
      S.yields (parseMeta pattern.sub).deep glob entry = true) ↔
    (entry ∈ walked t' (place (baseOf pattern)) (parseMeta pattern.sub).deep ∧
      S.yields (parseMeta pattern.sub).deep glob entry = true) := by
  refine and_congr_left fun hyields => ?_
  obtain ⟨rel, kind⟩ := entry
  rcases List.eq_nil_or_concat' rel with rfl | ⟨before, n, rfl⟩
  · simp [mem_walked]
  · have hiff : ∀ {t}, (before ++ [n], kind) ∈ walked t (place (baseOf pattern))
        (parseMeta pattern.sub).deep ↔ ((parseMeta pattern.sub).deep = false → before = []) ∧
          t.Has (place (baseOf pattern) ++ (before ++ [n])) kind := by
      intro t
      rw [mem_walked]
      constructor
      · exact fun hw => ⟨fun hf => before_eq_nil (hw.2.1 hf), hw.2.2⟩
      · exact fun hw => ⟨by simp, fun hf => ⟨n, by rw [hw.1 hf]; rfl⟩, hw.2⟩
    rw [hiff, hiff]
    refine and_congr_right fun hshallow => ?_
    by_cases hpass : S.passes (S.filterOf (parseMeta pattern.sub).name) (n, kind) = true
    · exact h.has_passing hS hshallow hpass
    · cases kind with
      | dir => exact absurd rfl hpass
      | file =>
        constructor
        · exact fun hhas => h.has_file hS (hiff.2 ⟨hshallow, hhas⟩) hyields
        · intro hhas
          rcases hseen with hplain | hseen
          · exact absurd (passes_of_plain hS hnew hplain hhas.valid hyields) hpass
          · exact hseen before n
              ⟨hiff.2 ⟨hshallow, hhas⟩, ⟨glob, hnew, hyields⟩, by simpa using hpass⟩

/-! ## The results of two trees -/

instance : IsTrans GlobMatch fun a b => a.path.sub ≤ b.path.sub := ⟨fun _ _ _ => List.le_trans⟩

instance : Std.Total fun a b : GlobMatch => a.path.sub ≤ b.path.sub :=
  ⟨fun _ _ => List.le_total _ _⟩

theorem mem_matchOf {base : Path} {entries : List (List Str × Kind)} {m : GlobMatch} :
    m ∈ entries.filterMap (matchOf base) ↔
      ∃ rel, (rel, .file) ∈ entries ∧ m = ⟨join base (joined rel), joined rel⟩ := by
  rw [List.mem_filterMap]
  constructor
  · rintro ⟨⟨rel, kind⟩, hmem, heq⟩
    cases kind with
    | dir => cases heq
    | file =>
      cases heq
      exact ⟨rel, hmem, rfl⟩
  · rintro ⟨rel, hmem, rfl⟩
    exact ⟨(rel, .file), hmem, rfl⟩

/-- Walks that yield the same have the same rows and the same matches. -/
theorem collect_eq {base : Path} {shape : Meta} {glob : S.Compiled}
    (h : ∀ entry,
      (entry ∈ walked t (place base) shape.deep ∧ S.yields shape.deep glob entry = true) ↔
      (entry ∈ walked t' (place base) shape.deep ∧ S.yields shape.deep glob entry = true)) :
    (S.collect t' base shape glob).matched = (S.collect t base shape glob).matched ∧
      ∀ row, row ∈ (S.collect t' base shape glob).obs ↔
        row ∈ (S.collect t base shape glob).obs := by
  have hperm : ((walked t' (place base) shape.deep).filter (S.yields shape.deep glob)).Perm
      ((walked t (place base) shape.deep).filter (S.yields shape.deep glob)) := by
    refine (List.perm_ext_iff_of_nodup ((nodup_walked _ _).filter _)
      ((nodup_walked _ _).filter _)).2 fun entry => ?_
    rw [List.mem_filter, List.mem_filter]
    exact (h entry).symm
  constructor
  · have hmatches := hperm.filterMap (matchOf base)
    refine List.Perm.eq_of_pairwise ?_ (List.pairwise_insertionSort _ _)
      (List.pairwise_insertionSort _ _) ?_
    · intro a b ha hb hab hba
      obtain ⟨rel, -, rfl⟩ := mem_matchOf.1 ((List.mem_insertionSort _).1 ha)
      obtain ⟨rel', -, rfl⟩ := mem_matchOf.1 ((List.mem_insertionSort _).1 hb)
      have hpath : join base (joined rel) = join base (joined rel') :=
        Path.ext rfl (List.le_antisymm hab hba)
      rw [join_injective hpath]
    · exact (List.perm_insertionSort _ _).trans
        (hmatches.trans (List.perm_insertionSort _ _).symm)
  · intro row
    simp only [Sp.collect, List.mem_cons, (hperm.map _).mem_iff]

/-- Where every row of a glob resolves to one digest in two trees, the glob has the same
matches and rows in both, but for what the rows do not say. -/
theorem rows_determine_matches (hS : S.Documented name) {result : GlobResult}
    (hglob : S.dagGlob t pattern = some result) (hrows : ∀ row ∈ result.obs, S.Same t t' row) :
    (∃ result', S.dagGlob t' pattern = some result' ∧ result'.matched = result.matched ∧
      ∀ row, row ∈ result'.obs ↔ row ∈ result.obs) ↔ ¬S.Unsaid t t' pattern := by
  unfold Sp.Unsaid
  unfold Sp.dagGlob at hglob ⊢
  by_cases hliteral : (parseMeta pattern.sub).literal = true
  · simp only [hliteral, if_true] at hglob ⊢
    rw [globLiteral_eq hS hglob hrows, not_not]
  rw [if_neg hliteral] at hglob ⊢
  simp only [if_neg hliteral]
  cases hnew : S.globNew (parseMeta pattern.sub).rest with
  | none => simp [hnew] at hglob
  | some glob =>
    simp only [hnew] at hglob ⊢
    split_ifs at hglob
    obtain rfl := Option.some.inj hglob
    have hagree : S.Agree t t' (baseOf pattern) (parseMeta pattern.sub) glob := hrows
    constructor
    · rintro ⟨result', hglob', hmatched, -⟩ hunsaid
      split_ifs at hglob' with hopen
      obtain rfl := Option.some.inj hglob'
      obtain hdir | ⟨-, before, n, hover, hno⟩ := hunsaid
      · exact hopen hdir
      · -- a match of the second tree is one of the first
        obtain ⟨glob', hnew', hmatch⟩ := hover.matched
        obtain rfl : glob = glob' := Option.some.inj (hnew.symm.trans hnew')
        have hmem : (⟨join (baseOf pattern) (joined (before ++ [n])), joined (before ++ [n])⟩ :
            GlobMatch) ∈ (S.collect t' (baseOf pattern) (parseMeta pattern.sub) glob).matched :=
          (List.mem_insertionSort _).2 (mem_matchOf.2
            ⟨_, List.mem_filter.2 ⟨hover.walked, hmatch⟩, rfl⟩)
        rw [hmatched] at hmem
        obtain ⟨rel, hrel, heq⟩ := mem_matchOf.1 ((List.mem_insertionSort _).1 hmem)
        obtain ⟨hne, -, hhas⟩ := mem_walked.1 (List.mem_filter.1 hrel).1
        obtain ⟨hne', -, hhas'⟩ := mem_walked.1 hover.walked
        have hnames : before ++ [n] = rel :=
          joined_injective hne' hne hhas'.valid hhas.valid (congrArg GlobMatch.rel heq)
        exact hno (hnames ▸ hhas)
    · intro hsaid
      have hseen : Plain (parseMeta pattern.sub).rest ∨ ∀ before n,
          S.Overlooks t' pattern before n →
            t.Has (place (baseOf pattern) ++ (before ++ [n])) .file := by
        by_contra hno
        push Not at hno
        exact hsaid (.inr hno)
      obtain ⟨hmatched, hobs⟩ := collect_eq (yielded_iff hS hnew hagree hseen)
      exact ⟨_, if_neg fun hdir => hsaid (.inl hdir), hmatched, hobs⟩

end

/-! ## A class that holds a slash -/

section

/-- How a component matches a name: a class holds the characters of its text. -/
def matchName : List Tok → Str → Bool
  | [], n => n = []
  | .lit c :: toks, n => n.head? = some c && matchName toks n.tail
  | .slash :: _, _ => false
  | .any :: toks, n => n ≠ [] && matchName toks n.tail
  | .star :: toks, n => n.tails.any (matchName toks)
  | .cls body :: toks, n => n.head?.any (· ∈ body) && matchName toks n.tail

open Classical in
/-- Globs of some patterns, with a hash that is its text. -/
noncomputable def globsOf (accepted : List Str) : Sp where
  Compiled := Str
  globNew p := if p ∈ accepted then some p else none
  globMatch p path := decide (∃ names, names ≠ [] ∧ (∀ n ∈ names, ValidName n) ∧
    joined names = path ∧ Matches (fun toks n => matchName toks n = true) p names)
  Digest := Option (List UInt8)
  zero := none
  blake3 := some
  fileKind := 1
  dirKind := 2

theorem globMatch_globsOf {accepted : List Str} {p : Str} {names : List Str} (hne : names ≠ [])
    (h : ∀ n ∈ names, ValidName n) : (globsOf accepted).globMatch p (joined names) = true ↔
      Matches (fun toks n => matchName toks n = true) p names := by
  simp only [globsOf, decide_eq_true_eq]
  constructor
  · rintro ⟨names', hne', h', heq, hmatch⟩
    rwa [← joined_injective hne' hne h' h heq]
  · exact fun hmatch => ⟨names, hne, h, rfl, hmatch⟩

theorem documented_globsOf (accepted : List Str) :
    (globsOf accepted).Documented fun toks n => matchName toks n = true where
  matches_iff p glob hnew names hne h := by
    obtain rfl : p = glob := by
      simp only [globsOf] at hnew
      split_ifs at hnew
      exact Option.some.inj hnew
    exact globMatch_globsOf hne h
  injective := Option.some_injective _
  nonzero _ := by simp [globsOf]
  kinds := by simp [globsOf]

/-- A tree without directories. -/
def flat (names : List String) (hdistinct : (names.map fun n => [str n]).Nodup)
    (hvalid : ∀ n ∈ names, ValidName (str n))
    (hsmall : names.length < 2 ^ 64 ∧ ∀ n ∈ names, (str n).length < 2 ^ 64) : FileTree where
  entries := names.map fun n => ([str n], .file [])
  distinct := by simpa [List.map_map, Function.comp_def] using hdistinct
  named := by
    intro e he
    obtain ⟨n, hn, rfl⟩ := List.mem_map.1 he
    exact ⟨List.cons_ne_nil _ _, fun m hm => List.mem_singleton.1 hm ▸ hvalid n hn⟩
  parents := by
    intro e he
    obtain ⟨n, -, rfl⟩ := List.mem_map.1 he
    exact .inl rfl
  small := by
    refine ⟨by simpa using hsmall.1, fun e he m hm => ?_⟩
    obtain ⟨n, hn, rfl⟩ := List.mem_map.1 he
    exact List.mem_singleton.1 hm ▸ hsmall.2 n hn

theorem globNew_globsOf {accepted : List Str} {p : Str} (h : p ∈ accepted) :
    (globsOf accepted).globNew p = some p := if_pos h

theorem dagGlob_of_shape (S : Sp) (t : FileTree) (pattern : Path) {shape : Meta}
    {glob : S.Compiled} (hshape : parseMeta pattern.sub = shape) (hliteral : shape.literal = false)
    (hnew : S.globNew shape.rest = some glob) (hopen : t.openDir (place (baseOf pattern)) = none) :
    S.dagGlob t pattern = some (S.collect t (baseOf pattern) shape glob) := by
  rw [Sp.dagGlob]
  simp only [hshape, hliteral, hnew, hopen]
  rfl

theorem membershipDigest_of_new (S : Sp) (t : FileTree) (dir : List Str) {filter : Str}
    (hfilter : filter ≠ []) {glob : S.Compiled} (hnew : S.globNew filter = some glob) :
    S.membershipDigest t dir filter = some (S.blake3 (listing (S.members t dir (some glob)))) := by
  rw [Sp.membershipDigest, if_neg hfilter]
  simp only [hnew]

def oneFile : FileTree := flat ["a.c"] (by decide +kernel) (by decide +kernel) (by decide +kernel)

def twoFiles : FileTree :=
  flat ["a.c", "h"] (by decide +kernel) (by decide +kernel) (by decide +kernel)

/-- What `*.c` finds in the tree of one file. -/
def starResult : GlobResult where
  obs := [⟨.enumeration, ⟨.project, []⟩, str "*.c"⟩, ⟨.file, ⟨.project, str "a.c"⟩, []⟩]
  matched := [⟨⟨.project, str "a.c"⟩, str "a.c"⟩]

theorem parseMeta_star : parseMeta (str "*.c") = ⟨[], str "*.c", str "*.c", false, false⟩ := by
  decide +kernel

theorem dagGlob_star (S : Sp) {glob : S.Compiled} (hnew : S.globNew (str "*.c") = some glob)
    (ha : S.globMatch glob (str "a.c") = true) :
    S.dagGlob oneFile ⟨.project, str "*.c"⟩ = some starResult := by
  have hwalked : walked oneFile (place ⟨.project, []⟩) false = [([str "a.c"], .file)] := by
    decide +kernel
  have hbase : baseOf ⟨.project, str "*.c"⟩ = ⟨.project, []⟩ := by decide +kernel
  rw [dagGlob_of_shape S oneFile ⟨.project, str "*.c"⟩ parseMeta_star rfl hnew
    (by decide +kernel), Sp.collect, hbase]
  simp only [hwalked]
  simp [Sp.yields, joined_singleton, ha, rowOf, matchOf, join, starResult]

theorem same_star (S : Sp) {glob : S.Compiled} (hnew : S.globNew (str "*.c") = some glob)
    (ha : S.globMatch glob (str "a.c") = true) (hh : S.globMatch glob (str "h") = false) :
    ∀ row ∈ starResult.obs, S.Same oneFile twoFiles row := by
  have hmembers : S.members oneFile [] (some glob) = [(str "a.c", S.fileKind)] := by
    rw [Sp.members, show oneFile.children [] = [(str "a.c", .file)] by decide +kernel]
    simp [Sp.passes, ha, Sp.kind]
  have hmembers' : S.members twoFiles [] (some glob) = [(str "a.c", S.fileKind)] := by
    rw [Sp.members, show twoFiles.children [] = [(str "a.c", .file), (str "h", .file)] by
      decide +kernel]
    simp [Sp.passes, ha, hh, Sp.kind]
  have hne : str "*.c" ≠ [] := by decide +kernel
  have hroot : place ⟨.project, []⟩ = [] := by decide +kernel
  have hplace : place ⟨.project, str "a.c"⟩ = [str "a.c"] := by decide +kernel
  have hstat : oneFile.stat [str "a.c"] = .ok (.file []) := rfl
  have hstat' : twoFiles.stat [str "a.c"] = .ok (.file []) := rfl
  intro row hrow
  simp only [starResult, List.mem_cons, List.not_mem_nil, or_false] at hrow
  rcases hrow with rfl | rfl
  · refine ⟨S.blake3 (listing [(str "a.c", S.fileKind)]), ?_, ?_⟩
    · simp only [Sp.resolveOne, hroot, membershipDigest_of_new S _ _ hne hnew, hmembers]
    · simp only [Sp.resolveOne, hroot, membershipDigest_of_new S _ _ hne hnew, hmembers']
  · refine ⟨S.blake3 [], ?_, ?_⟩
    · simp only [Sp.resolveOne, Sp.resolveNode, hplace, hstat]
    · simp only [Sp.resolveOne, Sp.resolveNode, hplace, hstat']

theorem globMatch_star {n : Str} (hn : ValidName n) :
    (globsOf [str "*.c"]).globMatch (str "*.c") n = true ↔
      matchName [.star, .lit 0x2e, .lit 0x63] n = true := by
  have hcomps : Glob.components ((str "*.c").map Glob.tokOf) =
      [[.star, .lit 0x2e, .lit 0x63]] := by decide +kernel
  rw [← joined_singleton n, globMatch_globsOf (List.cons_ne_nil _ _)
    (fun m hm => List.mem_singleton.1 hm ▸ hn), joined_singleton,
    Glob.matches_iff_of_simple (by decide +kernel) (by decide +kernel), hcomps,
    Glob.matchComps_singleton]
  simp

/-- A file that is no match makes no difference to `*.c`. -/
theorem rows_determine_matches_star : ∃ result',
    (globsOf [str "*.c"]).dagGlob twoFiles ⟨.project, str "*.c"⟩ = some result' ∧
      result'.matched = starResult.matched ∧
      ∀ row, row ∈ result'.obs ↔ row ∈ starResult.obs := by
  have hnew : (globsOf [str "*.c"]).globNew (str "*.c") = some (str "*.c") :=
    globNew_globsOf List.mem_cons_self
  have ha := (globMatch_star (n := str "a.c") (by decide +kernel)).2 (by decide +kernel)
  have hh := Bool.eq_false_iff.2 fun h =>
    absurd ((globMatch_star (n := str "h") (by decide +kernel)).1 h) (by decide +kernel)
  refine (rows_determine_matches (documented_globsOf _) (dagGlob_star _ hnew ha)
    (same_star _ hnew ha hh)).2 ?_
  have hplain : Plain (str "*.c") := Glob.plain_of_no_class (by decide +kernel)
  rw [Sp.Unsaid]
  simp only [parseMeta_star]
  rintro (hopen | ⟨hno, -⟩)
  · exact absurd hopen (by decide +kernel)
  · exact hno hplain

def slashed : Path := ⟨.project, str "[a/b].c"⟩

theorem parseMeta_slashed :
    parseMeta (str "[a/b].c") = ⟨[], str "[a/b].c", str "b].c", false, true⟩ := by
  decide +kernel

def noFile : FileTree := flat [] (by decide +kernel) (by decide +kernel) (by decide +kernel)

/-- The pattern `[a/b].c` matches `a.c`, but what comes after its slash does not: the rows of
a tree without files do not say that there is no `a.c`. -/
theorem class_with_slash_unsaid : ∃ S name t t' pattern result, Sp.Documented S name ∧
    S.dagGlob t pattern = some result ∧ (∀ row ∈ result.obs, S.Same t t' row) ∧
    ¬∃ result', S.dagGlob t' pattern = some result' ∧ result'.matched = result.matched ∧
      ∀ row, row ∈ result'.obs ↔ row ∈ result.obs := by
  let S := globsOf [str "[a/b].c", str "b].c"]
  have hnew : S.globNew (str "[a/b].c") = some (str "[a/b].c") := globNew_globsOf (by simp)
  have hfilter : S.globNew (str "b].c") = some (str "b].c") := globNew_globsOf (by simp)
  have hvalid : ∀ n ∈ [str "a.c"], ValidName n := by decide +kernel
  have hmatch : S.globMatch (str "[a/b].c") (joined [str "a.c"]) = true := by
    refine (globMatch_globsOf (List.cons_ne_nil _ _) hvalid).2
      ⟨[.cls (str "a/b"), .chr 0x2e, .chr 0x63], [.cls (str "a/b"), .lit 0x2e, .lit 0x63],
        ⟨by decide +kernel, by decide +kernel⟩,
        .cls (.lit (by decide) (.inl rfl) (.lit (by decide) (.inl rfl) .done)), ?_⟩
    rw [Glob.components_of_not_mem (by decide), Glob.matchComps_singleton]
    exact .inl (by decide +kernel)
  have hno : S.globMatch (str "b].c") (joined [str "a.c"]) = false := by
    refine Bool.eq_false_iff.2 fun h => ?_
    have h := (globMatch_globsOf (List.cons_ne_nil _ _) hvalid).1 h
    rw [Glob.matches_iff_of_simple (by decide +kernel) (by decide +kernel),
      Glob.components_of_not_mem (by decide +kernel), Glob.matchComps_singleton] at h
    exact absurd h (by decide +kernel)
  have hbase : baseOf slashed = ⟨.project, []⟩ := by decide +kernel
  have hroot : place ⟨.project, []⟩ = [] := by decide +kernel
  have hglob := dagGlob_of_shape S noFile slashed parseMeta_slashed rfl hnew (by decide +kernel)
  have hglob' := dagGlob_of_shape S oneFile slashed parseMeta_slashed rfl hnew (by decide +kernel)
  have hresult : S.collect noFile ⟨.project, []⟩ ⟨[], str "[a/b].c", str "b].c", false, true⟩
      (str "[a/b].c") = ⟨[⟨.enumeration, ⟨.project, []⟩, str "b].c"⟩], []⟩ := rfl
  rw [hbase] at hglob hglob'
  rw [hresult] at hglob
  refine ⟨S, _, noFile, oneFile, slashed, _, documented_globsOf _, hglob, ?_, ?_⟩
  · intro row hrow
    obtain rfl := List.mem_singleton.1 hrow
    have hne : str "b].c" ≠ [] := by decide +kernel
    have hmembers : S.members oneFile [] (some (str "b].c")) = [] := by
      rw [Sp.members, show oneFile.children [] = [(str "a.c", .file)] by decide +kernel]
      rw [joined_singleton] at hno
      simp [Sp.passes, hno]
    refine ⟨S.blake3 (listing []), ?_, ?_⟩
    · simp only [Sp.resolveOne, hroot, membershipDigest_of_new S _ _ hne hfilter]
      rfl
    · simp only [Sp.resolveOne, hroot, membershipDigest_of_new S _ _ hne hfilter, hmembers]
  · rintro ⟨result', hfound, hmatched, -⟩
    obtain rfl := Option.some.inj (hglob'.symm.trans hfound)
    have hmem : (⟨join ⟨.project, []⟩ (joined [str "a.c"]), joined [str "a.c"]⟩ : GlobMatch) ∈
        (S.collect oneFile ⟨.project, []⟩ ⟨[], str "[a/b].c", str "b].c", false, true⟩
          (str "[a/b].c")).matched :=
      (List.mem_insertionSort _).2 (mem_matchOf.2
        ⟨_, List.mem_filter.2 ⟨by decide +kernel, hmatch⟩, rfl⟩)
    rw [hmatched] at hmem
    cases hmem

end

end Spn.Glob
