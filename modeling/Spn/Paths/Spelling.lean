import Spn.Paths

/-! # The spelling of paths

`paths.c` from text to a root with a path under it and back: `spn_path_make`, `spn_path_str`,
`spn_path_anchor` and `spn_path_join`. Two functions on strings are not of the program:
`sp_fs_is_absolute` and `sp_fs_join_path`.
-/
namespace Spn

/-! ## The functions -/

/-- What is used of the library. -/
structure FsLib where
  absolute : Str → Bool
  joinPath : Str → Str → Str

/-- A path that begins with a slash is absolute, and so is what goes on from an absolute path.
Paths are joined by a slash; before the slash of `/` itself it may be a second one. -/
structure FsLib.Documented (L : FsLib) : Prop where
  absolute_slash : ∀ s, L.absolute (slash :: s) = true
  absolute_append : ∀ a b, L.absolute a = true → L.absolute (a ++ b) = true
  relative_nil : L.absolute [] = false
  joinPath_nil : ∀ a, a.getLast? ≠ some slash → L.joinPath a [] = a
  joinPath_of : ∀ a b, a ≠ [] → a.getLast? ≠ some slash → b ≠ [] → b.head? ≠ some slash →
    L.joinPath a b = a ++ slash :: b
  joinPath_slash : ∀ b, L.joinPath [slash] b = slash :: b ∨ L.joinPath [slash] b = slash :: slash :: b

def dot : UInt8 := 0x2e

/-- `seg_normal`. -/
def segNormal (seg : Str) : Bool :=
  match seg with
  | [] => false
  | [a] => a ≠ dot
  | [a, b] => !(a = dot ∧ b = dot)
  | _ => true

/-- The loop of `spn_path_normal`, with the segment it is in. -/
def normalFrom : Str → Str → Bool
  | seg, [] => segNormal seg
  | seg, c :: rest =>
    if c ≠ slash then normalFrom (seg ++ [c]) rest else segNormal seg && normalFrom [] rest

/-- What `spn_path_normal` looks at: all but a first slash. -/
def normalBody : Str → Str
  | [] => []
  | c :: rest => if c = slash then rest else c :: rest

/-- `spn_path_normal`. -/
def pathNormal (path : Str) : Bool := normalBody path = [] || normalFrom [] (normalBody path)

namespace Roots

variable (L : FsLib) (r : Roots)

def allRoots : List PathRoot := .none :: opened

/-- The loop of `root_longest`. -/
def longestFrom (s : Str) : List PathRoot → PathRoot → ℕ → PathRoot
  | [], best, _ => best
  | it :: rest, best, longest =>
    if longest < (r.dirs it).length ∧ rootMatch (r.dirs it) s then
      longestFrom s rest it (r.dirs it).length
    else longestFrom s rest best longest

/-- `root_longest`. -/
def rootLongest (s : Str) : PathRoot := r.longestFrom s allRoots .none 0

/-- `spn_path_make`; nothing when an assertion fails. -/
def make (path : Str) : Option Path :=
  if !L.absolute path || !pathNormal path then none
  else
    let root := r.rootLongest path
    if root = .none then some ⟨.none, path⟩
    else
      let len := (r.dirs root).length
      some ⟨root, path.drop (if len < path.length then len + 1 else len)⟩

/-- `spn_path_str`; nothing for a root that is not opened. -/
def spell (p : Path) : Option Str :=
  if p.root = .none then some p.sub
  else if r.dirs p.root = [] then none
  else some (if p.sub = [] then r.dirs p.root else L.joinPath (r.dirs p.root) p.sub)

/-- `classify`. -/
def classify (p : Path) : Option Path :=
  if p.root ≠ .none ∧ r.dirs p.root = [] then some p else (r.spell L p).bind (r.make L)

/-- `spn_path_anchor`. -/
def anchor (p : Path) : Option Path :=
  (r.classify L p).bind fun a =>
    if a.root = .none ∨ r.dirs a.root ≠ [] then
      (r.spell L a).bind fun s => if r.intersect s then none else some a
    else some a

end Roots

/-- `spn_path_join`. -/
def FsLib.join (L : FsLib) (base : Path) (sub : Str) : Option Path :=
  if L.absolute sub then none
  else some ⟨base.root, if base.sub = [] then sub else L.joinPath base.sub sub⟩

/-! ## Normal paths -/

theorem normalFrom_append (seg a b : Str) :
    normalFrom seg (a ++ slash :: b) = (normalFrom seg a && normalFrom [] b) := by
  induction a generalizing seg with
  | nil => simp [normalFrom]
  | cons c a ih =>
    by_cases hc : c = slash
    · simp [normalFrom, hc, ih, Bool.and_assoc]
    · simp [normalFrom, hc, ih]

theorem normalFrom_ne_nil {s : Str} (h : normalFrom [] s = true) : s ≠ [] := by
  rintro rfl
  simp [normalFrom, segNormal] at h

theorem normalFrom_head {s : Str} (h : normalFrom [] s = true) : s.head? ≠ some slash := by
  intro hhead
  obtain ⟨rest, rfl⟩ := List.head?_eq_some_iff.1 hhead
  simp [normalFrom, segNormal] at h

theorem normalFrom_last {s : Str} (h : normalFrom [] s = true) : s.getLast? ≠ some slash := by
  intro hlast
  obtain ⟨rest, rfl⟩ := List.getLast?_eq_some_iff.1 hlast
  rw [normalFrom_append, Bool.and_eq_true] at h
  exact normalFrom_ne_nil h.2 rfl

theorem normalBody_append {a : Str} (ha : a ≠ []) (b : Str) :
    normalBody (a ++ b) = normalBody a ++ b := by
  cases a with
  | nil => exact absurd rfl ha
  | cons c a => by_cases hc : c = slash <;> simp [normalBody, hc]

theorem normalBody_eq_nil {a : Str} : normalBody a = [] ↔ a = [] ∨ a = [slash] := by
  cases a with
  | nil => simp [normalBody]
  | cons c a => by_cases hc : c = slash <;> simp [normalBody, hc]

theorem pathNormal_of_body {a : Str} (h : normalFrom [] (normalBody a) = true) :
    pathNormal a = true := by
  simp [pathNormal, h]

theorem normalFrom_body {a : Str} (h : pathNormal a = true) (hne : a ≠ []) (hslash : a ≠ [slash]) :
    normalFrom [] (normalBody a) = true := by
  have hbody : normalBody a ≠ [] := fun hnil => (normalBody_eq_nil.1 hnil).elim hne hslash
  simpa [pathNormal, hbody] using h

theorem pathNormal_append {a : Str} (ha : a ≠ []) (b : Str) :
    pathNormal (a ++ slash :: b) = (normalFrom [] (normalBody a) && normalFrom [] b) := by
  simp [pathNormal, normalBody_append ha, normalFrom_append]

theorem getLast?_of_body {a : Str} (h : normalFrom [] (normalBody a) = true) :
    a.getLast? ≠ some slash := by
  have hlast := normalFrom_last h
  cases a with
  | nil => simp
  | cons c a =>
    by_cases hc : c = slash
    · have hne := normalFrom_ne_nil h
      simp only [normalBody, if_pos hc] at hlast hne
      rwa [List.getLast?_cons_of_ne_nil hne]
    · simpa [normalBody, hc] using hlast

theorem ne_nil_of_body {a : Str} (h : normalFrom [] (normalBody a) = true) : a ≠ [] := by
  rintro rfl
  exact normalFrom_ne_nil h rfl

theorem ne_slash_of_body {a : Str} (h : normalFrom [] (normalBody a) = true) : a ≠ [slash] := by
  rintro rfl
  exact normalFrom_ne_nil h (by simp [normalBody])

/-! ## The root of a path -/

namespace Roots

theorem rootMatch_iff {dir p : Str} :
    rootMatch dir p = true ↔ p = dir ∨ ∃ rest, p = dir ++ slash :: rest := by
  rw [rootMatch, decide_eq_true_iff]
  constructor
  · rintro ⟨⟨rest, rfl⟩, hlen | hat⟩
    · have hrest : rest = [] := List.length_eq_zero_iff.1 (by simpa using hlen)
      exact .inl (by simp [hrest])
    · rw [List.getElem?_append_right le_rfl, Nat.sub_self] at hat
      cases rest with
      | nil => cases hat
      | cons c rest =>
        cases hat
        exact .inr ⟨rest, rfl⟩
  · rintro (rfl | ⟨rest, rfl⟩)
    · exact ⟨List.prefix_refl _, .inl rfl⟩
    · exact ⟨List.prefix_append _ _, .inr (by simp)⟩

variable {L : FsLib} {r : Roots}

/-- A root that is opened and holds the path. -/
def Matches (r : Roots) (root : PathRoot) (s : Str) : Prop :=
  r.dirs root ≠ [] ∧ rootMatch (r.dirs root) s = true

theorem longestFrom_spec {s : Str} {its : List PathRoot} {best : PathRoot}
    (hbest : best = .none ∨ r.Matches best s) :
    let root := r.longestFrom s its best (r.dirs best).length
    (root = .none ∨ r.Matches root s) ∧ (r.dirs best).length ≤ (r.dirs root).length ∧
      ∀ it ∈ its, r.Matches it s → (r.dirs it).length ≤ (r.dirs root).length := by
  induction its generalizing best with
  | nil => exact ⟨hbest, le_rfl, nofun⟩
  | cons it its ih =>
    rw [longestFrom]
    split_ifs with hlonger
    · have hit : r.Matches it s := ⟨List.length_pos_iff.1 (by omega), hlonger.2⟩
      obtain ⟨hroot, hle, hrest⟩ := ih (.inr hit)
      refine ⟨hroot, by omega, fun it' hmem hmatch => ?_⟩
      obtain rfl | hmem := List.mem_cons.1 hmem
      · exact hle
      · exact hrest it' hmem hmatch
    · obtain ⟨hroot, hle, hrest⟩ := ih hbest
      refine ⟨hroot, hle, fun it' hmem hmatch => ?_⟩
      obtain rfl | hmem := List.mem_cons.1 hmem
      · have hnot : (r.dirs it').length ≤ (r.dirs best).length :=
          Nat.le_of_not_lt fun hlt => hlonger ⟨hlt, hmatch.2⟩
        omega
      · exact hrest it' hmem hmatch

theorem longestFrom_congr {s t : Str} (h : ∀ it, r.Matches it s ↔ r.Matches it t)
    (its : List PathRoot) (best : PathRoot) (longest : ℕ) :
    r.longestFrom s its best longest = r.longestFrom t its best longest := by
  induction its generalizing best longest with
  | nil => rfl
  | cons it its ih =>
    have hif : (longest < (r.dirs it).length ∧ rootMatch (r.dirs it) s = true) ↔
        (longest < (r.dirs it).length ∧ rootMatch (r.dirs it) t = true) := by
      refine and_congr_right fun hlt => ?_
      have hne : r.dirs it ≠ [] := List.length_pos_iff.1 (by omega)
      exact ⟨fun hm => ((h it).1 ⟨hne, hm⟩).2, fun hm => ((h it).2 ⟨hne, hm⟩).2⟩
    rw [longestFrom, longestFrom, ih, ih]
    simp only [hif]

theorem mem_allRoots (root : PathRoot) : root ∈ allRoots := by
  cases root <;> decide

theorem rootLongest_congr {s t : Str} (h : ∀ it, r.Matches it s ↔ r.Matches it t) :
    r.rootLongest s = r.rootLongest t :=
  longestFrom_congr h _ _ _

/-- The directories of the opened roots are canonical: absolute and normal. The absolute root
has none. -/
structure Canonical (L : FsLib) (r : Roots) : Prop where
  none_dir : r.dirs .none = []
  absolute : ∀ root, r.dirs root ≠ [] → L.absolute (r.dirs root) = true
  normal : ∀ root, r.dirs root ≠ [] → pathNormal (r.dirs root) = true

theorem Canonical.ne_none (hr : r.Canonical L) {root : PathRoot} {s : Str}
    (h : r.Matches root s) : root ≠ .none := by
  rintro rfl
  exact h.1 hr.none_dir

/-- `root_longest` finds a root with the longest directory, if there is one. -/
theorem Canonical.rootLongest_spec (hr : r.Canonical L) (s : Str) :
    (r.rootLongest s = .none ∧ ∀ it, ¬r.Matches it s) ∨
      (r.Matches (r.rootLongest s) s ∧
        ∀ it, r.Matches it s → (r.dirs it).length ≤ (r.dirs (r.rootLongest s)).length) := by
  have hspec := @longestFrom_spec r s allRoots .none (.inl rfl)
  rw [hr.none_dir] at hspec
  obtain ⟨hroot, -, hall⟩ := hspec
  by_cases hnone : r.rootLongest s = .none
  · refine .inl ⟨hnone, fun it hit => ?_⟩
    have hle := hall it (mem_allRoots it) hit
    change (r.dirs it).length ≤ (r.dirs (r.rootLongest s)).length at hle
    rw [hnone, hr.none_dir] at hle
    exact hit.1 (List.length_eq_zero_iff.1 (Nat.le_zero.1 hle))
  · exact .inr ⟨hroot.resolve_left hnone, fun it hit => hall it (mem_allRoots it) hit⟩

/-! ## From text and back -/

/-- How a path is spelled: outside all roots, at the directory of a root, or below it. -/
inductive Spells (r : Roots) (p : Str) : Path → Prop
  | outside (hroot : r.rootLongest p = .none) : Spells r p ⟨.none, p⟩
  | top {root : PathRoot} (hroot : r.rootLongest p = root) (hne : root ≠ .none)
      (hdir : r.dirs root ≠ []) (hp : p = r.dirs root) : Spells r p ⟨root, []⟩
  | below {root : PathRoot} {sub : Str} (hroot : r.rootLongest p = root) (hne : root ≠ .none)
      (hdir : normalFrom [] (normalBody (r.dirs root)) = true) (hsub : normalFrom [] sub = true)
      (hp : p = r.dirs root ++ slash :: sub) : Spells r p ⟨root, sub⟩

theorem Spells.unique {p : Str} {x y : Path} (hx : r.Spells p x) (hy : r.Spells p y) : x = y := by
  have hlong : ∀ (dir sub : Str), dir ≠ dir ++ slash :: sub := by
    intro dir sub h
    have hlen := congrArg List.length h
    simp at hlen
  cases hx with
  | outside hroot =>
    cases hy with
    | outside => rfl
    | top hroot' hne | below hroot' hne => exact absurd (hroot'.symm.trans hroot) hne
  | top hroot hne hdir hp =>
    cases hy with
    | outside hroot' => exact absurd (hroot.symm.trans hroot') hne
    | top hroot' => rw [← hroot, hroot']
    | below hroot' _ _ _ hp' =>
      obtain rfl := hroot.symm.trans hroot'
      exact absurd (hp.symm.trans hp') (hlong _ _)
  | below hroot hne hdir hsub hp =>
    cases hy with
    | outside hroot' => exact absurd (hroot.symm.trans hroot') hne
    | top hroot' _ _ hp' =>
      obtain rfl := hroot.symm.trans hroot'
      exact absurd (hp'.symm.trans hp) (hlong _ _)
    | below hroot' _ _ _ hp' =>
      obtain rfl := hroot.symm.trans hroot'
      have hsubs := List.append_cancel_left (hp.symm.trans hp')
      rw [(List.cons_eq_cons.1 hsubs).2]

theorem normal_of_make {p : Str} {x : Path} (h : r.make L p = some x) :
    L.absolute p = true ∧ pathNormal p = true := by
  rw [make] at h
  split_ifs at h with hcond
  simpa using hcond

theorem drop_dir (dir rest : Str) : (dir ++ slash :: rest).drop (dir.length + 1) = rest := by
  rw [← List.drop_drop, List.drop_left]
  rfl

theorem Canonical.make_spells (hr : r.Canonical L) {p : Str} (habs : L.absolute p = true)
    (hnormal : pathNormal p = true) : ∃ x, r.make L p = some x ∧ r.Spells p x := by
  rw [make, if_neg (by simp [habs, hnormal])]
  rcases hr.rootLongest_spec p with ⟨hnone, -⟩ | ⟨hmatch, -⟩
  · simp only [hnone, if_true]
    exact ⟨_, rfl, .outside hnone⟩
  · have hne := hr.ne_none hmatch
    simp only [if_neg hne]
    refine ⟨_, rfl, ?_⟩
    rcases rootMatch_iff.1 hmatch.2 with hp | ⟨rest, hp⟩
    · have hlen : ¬(r.dirs (r.rootLongest p)).length < p.length := by
        rw [← hp]
        exact lt_irrefl _
      have hdrop : p.drop (r.dirs (r.rootLongest p)).length = [] := by rw [← hp, List.drop_length]
      rw [if_neg hlen, hdrop]
      exact .top rfl hne hmatch.1 hp
    · have hlen : (r.dirs (r.rootLongest p)).length < p.length := by
        have hlength := congrArg List.length hp
        simp only [List.length_append, List.length_cons] at hlength
        omega
      have hdrop : p.drop ((r.dirs (r.rootLongest p)).length + 1) = rest :=
        (congrArg (List.drop _) hp).trans (drop_dir _ _)
      rw [if_pos hlen, hdrop]
      rw [hp, pathNormal_append hmatch.1, Bool.and_eq_true] at hnormal
      exact .below rfl hne hnormal.1 hnormal.2 hp

/-- What `spn_path_make` returns is the one spelling of its text. -/
theorem Canonical.make_eq_some (hr : r.Canonical L) {p : Str} {x : Path}
    (habs : L.absolute p = true) (hnormal : pathNormal p = true) :
    r.make L p = some x ↔ r.Spells p x := by
  obtain ⟨y, hy, hspells⟩ := hr.make_spells habs hnormal
  constructor
  · intro hx
    rwa [← Option.some.inj (hy.symm.trans hx)]
  · intro hx
    rw [hy, hspells.unique hx]

theorem Spells.spell (hL : L.Documented) {p : Str} {x : Path} (h : r.Spells p x) :
    r.spell L x = some p := by
  cases h with
  | outside => rfl
  | top hroot hne hdir hp => simp [Roots.spell, hne, hdir, hp]
  | below hroot hne hdir hsub hp =>
    have hjoin := hL.joinPath_of _ _ (ne_nil_of_body hdir) (getLast?_of_body hdir)
      (normalFrom_ne_nil hsub) (normalFrom_head hsub)
    simp [Roots.spell, hne, ne_nil_of_body hdir, normalFrom_ne_nil hsub, hjoin, hp]

/-- Every normal absolute path has a spelling, from which it is read back. -/
theorem Canonical.make_spell (hr : r.Canonical L) (hL : L.Documented) {p : Str}
    (habs : L.absolute p = true) (hnormal : pathNormal p = true) :
    ∃ x, r.make L p = some x ∧ r.Spells p x ∧ r.spell L x = some p := by
  obtain ⟨x, hx, hspells⟩ := hr.make_spells habs hnormal
  exact ⟨x, hx, hspells, hspells.spell hL⟩

theorem Canonical.make_inj (hr : r.Canonical L) (hL : L.Documented) {p q : Str}
    (hp : L.absolute p = true) (hp' : pathNormal p = true) (hq : L.absolute q = true)
    (hq' : pathNormal q = true) : r.make L p = r.make L q ↔ p = q := by
  constructor
  · intro h
    obtain ⟨x, hx, -, hspell⟩ := hr.make_spell hL hp hp'
    obtain ⟨y, hy, -, hspell'⟩ := hr.make_spell hL hq hq'
    obtain rfl := Option.some.inj (hx.symm.trans (h.trans hy))
    exact Option.some.inj (hspell.symm.trans hspell')
  · rintro rfl
    rfl

/-! ## The deepest root -/

/-- A directory holds a path: it is the path, or the path goes on from it after a slash. -/
def Contains (dir p : Str) : Prop :=
  p = dir ∨ ∃ rest, p = (if dir = [slash] then dir else dir ++ [slash]) ++ rest

/-- The root is the one with the deepest directory that holds the path, and the absolute one
if none does. -/
def Deepest (r : Roots) (p : Str) (root : PathRoot) : Prop :=
  (root = .none ∧ ∀ it, r.dirs it ≠ [] → ¬Contains (r.dirs it) p) ∨
    (r.dirs root ≠ [] ∧ Contains (r.dirs root) p ∧
      ∀ it, r.dirs it ≠ [] → Contains (r.dirs it) p → (r.dirs it).length ≤ (r.dirs root).length)

theorem contains_iff_rootMatch {dir p : Str} (hdir : dir ≠ [slash]) :
    Contains dir p ↔ rootMatch dir p = true := by
  simp [Contains, rootMatch_iff, hdir]

theorem rootMatch_slash {p : Str} (hp : pathNormal p = true) (hne : p ≠ []) :
    rootMatch [slash] p = true ↔ p = [slash] := by
  rw [rootMatch_iff]
  refine ⟨fun h => h.elim id ?_, .inl⟩
  rintro ⟨rest, rfl⟩
  rw [pathNormal_append (List.cons_ne_nil _ _), Bool.and_eq_true] at hp
  exact absurd rfl (ne_slash_of_body hp.1)

theorem Spells.root {p : Str} {x : Path} (h : r.Spells p x) : x.root = r.rootLongest p := by
  cases h with
  | outside hroot | top hroot | below hroot => exact hroot.symm

/-- `spn_path_make` takes the deepest root, unless `/` is the directory of a root: that one
it takes for `/` alone. -/
theorem Canonical.deepest_iff (hr : r.Canonical L) (hL : L.Documented) {p : Str}
    (habs : L.absolute p = true) (hnormal : pathNormal p = true) :
    r.Deepest p (r.rootLongest p) ↔ ∀ it, r.dirs it = [slash] → Contains [slash] p →
      p = [slash] ∨ ∃ it', r.dirs it' ≠ [] ∧ r.dirs it' ≠ [slash] ∧ Contains (r.dirs it') p := by
  have hne : p ≠ [] := by
    rintro rfl
    rw [hL.relative_nil] at habs
    cases habs
  have hmatches : ∀ it, r.dirs it ≠ [] → r.dirs it ≠ [slash] → Contains (r.dirs it) p →
      r.Matches it p := fun it hopen hslash hcontains =>
    ⟨hopen, (contains_iff_rootMatch hslash).1 hcontains⟩
  constructor
  · rintro hdeep it hit hcontains
    rcases hdeep with ⟨-, hnone⟩ | ⟨hopen, hcontains', -⟩
    · exact absurd (hit ▸ hcontains) (hnone it (by rw [hit]; exact List.cons_ne_nil _ _))
    · by_cases hslash : r.dirs (r.rootLongest p) = [slash]
      · rcases hr.rootLongest_spec p with ⟨hnone, -⟩ | ⟨hmatch, -⟩
        · rw [hnone, hr.none_dir] at hopen
          exact absurd rfl hopen
        · exact .inl ((rootMatch_slash hnormal hne).1 (hslash ▸ hmatch.2))
      · exact .inr ⟨_, hopen, hslash, hcontains'⟩
  · intro hcond
    rcases hr.rootLongest_spec p with ⟨hnone, hno⟩ | ⟨hmatch, hlongest⟩
    · refine .inl ⟨hnone, fun it hopen hcontains => ?_⟩
      by_cases hslash : r.dirs it = [slash]
      · rcases hcond it hslash (hslash ▸ hcontains) with hp | ⟨it', hopen', hslash', hcontains'⟩
        · refine hno it ⟨hopen, ?_⟩
          rw [hslash, hp]
          exact (rootMatch_slash rfl (List.cons_ne_nil _ _)).2 rfl
        · exact hno it' (hmatches it' hopen' hslash' hcontains')
      · exact hno it (hmatches it hopen hslash hcontains)
    · refine .inr ⟨hmatch.1, ?_, fun it hopen hcontains => ?_⟩
      · by_cases hslash : r.dirs (r.rootLongest p) = [slash]
        · have hp := (rootMatch_slash hnormal hne).1 (hslash ▸ hmatch.2)
          rw [hslash]
          exact .inl hp
        · exact (contains_iff_rootMatch hslash).2 hmatch.2
      · by_cases hslash : r.dirs it = [slash]
        · rw [hslash]
          exact List.length_pos_iff.2 hmatch.1
        · exact hlongest it (hmatches it hopen hslash hcontains)

/-! ## Below an anchor -/

theorem rootMatch_append {dir q : Str} (s : Str) (hno : rootMatch q dir = false) :
    rootMatch dir (q ++ slash :: s) = true ↔ rootMatch dir q = true := by
  have hnot : ¬(dir = q ∨ ∃ rest, dir = q ++ slash :: rest) := fun h => by
    rw [rootMatch_iff.2 h] at hno
    cases hno
  push Not at hnot
  rw [rootMatch_iff, rootMatch_iff]
  constructor
  · rintro (heq | ⟨rest, heq⟩)
    · exact absurd heq.symm (hnot.2 s)
    · rcases List.append_eq_append_iff.1 heq with ⟨as, hdir, has⟩ | ⟨bs, hq, hbs⟩
      · cases as with
        | nil => exact absurd (by simpa using hdir) hnot.1
        | cons c as =>
          obtain rfl : slash = c := (List.cons_eq_cons.1 has).1
          exact absurd hdir (hnot.2 as)
      · cases bs with
        | nil => exact .inl (by simpa using hq)
        | cons c bs =>
          obtain rfl : slash = c := (List.cons_eq_cons.1 hbs).1
          exact .inr ⟨bs, hq⟩
  · rintro (rfl | ⟨rest, rfl⟩)
    · exact .inr ⟨s, rfl⟩
    · exact .inr ⟨rest ++ slash :: s, by simp⟩

theorem rootMatch_of_intersect (hr : r.Canonical L) {q : Str} (hno : r.intersect q = false)
    {it : PathRoot} (hopen : r.dirs it ≠ []) : rootMatch q (r.dirs it) = false := by
  have hmem : it ∈ opened := by
    cases it with
    | none => exact absurd hr.none_dir hopen
    | _ => decide
  have hnot := List.any_eq_false.1 hno it hmem
  simpa [hopen] using hnot

/-- Below a directory with no root in it, paths belong to the root of the directory. -/
theorem rootLongest_append (hr : r.Canonical L) {q : Str} (hno : r.intersect q = false) (s : Str) :
    r.rootLongest (q ++ slash :: s) = r.rootLongest q :=
  rootLongest_congr fun _ => and_congr_right fun hopen =>
    rootMatch_append s (rootMatch_of_intersect hr hno hopen)

/-- What an anchor is: a path under a root that is not opened, or the spelling of a directory
with no root in it. -/
theorem anchor_eq_some (hr : r.Canonical L) (hL : L.Documented) {path a : Path}
    (h : r.anchor L path = some a) : (a.root ≠ .none ∧ r.dirs a.root = []) ∨
      ∃ q, L.absolute q = true ∧ pathNormal q = true ∧ r.Spells q a ∧ r.intersect q = false := by
  obtain ⟨b, hclass, hcheck⟩ := Option.bind_eq_some_iff.1 h
  rw [classify] at hclass
  split_ifs at hclass with hclosed
  · obtain rfl := Option.some.inj hclass
    rw [if_neg (by push Not; exact hclosed)] at hcheck
    obtain rfl := Option.some.inj hcheck
    exact .inl hclosed
  · obtain ⟨q, -, hmake⟩ := Option.bind_eq_some_iff.1 hclass
    obtain ⟨habs, hnormal⟩ := normal_of_make hmake
    have hspells := (hr.make_eq_some habs hnormal).1 hmake
    have hopen : b.root = .none ∨ r.dirs b.root ≠ [] := by
      cases hspells with
      | outside => exact .inl rfl
      | top _ _ hdir => exact .inr hdir
      | below _ _ hdir => exact .inr (ne_nil_of_body hdir)
    rw [if_pos hopen, hspells.spell hL, Option.bind_some] at hcheck
    split_ifs at hcheck with hintersect
    obtain rfl := Option.some.inj hcheck
    exact .inr ⟨q, habs, hnormal, hspells, Bool.eq_false_iff.2 hintersect⟩

theorem relative_normal (hL : L.Documented) {s : Str} (hs : pathNormal s = true)
    (hrel : L.absolute s = false) : s = [] ∨ normalFrom [] s = true := by
  cases s with
  | nil => exact .inl rfl
  | cons c s =>
    have hc : c ≠ slash := by
      rintro rfl
      rw [hL.absolute_slash] at hrel
      cases hrel
    have hbody := normalFrom_body hs (List.cons_ne_nil _ _) (fun h => hc (List.cons_eq_cons.1 h).1)
    rw [normalBody, if_neg hc] at hbody
    exact .inr hbody

/-- What is below an anchor is spelled by going on from it. -/
theorem Spells.append (hr : r.Canonical L) {q s : Str} {a : Path} (h : r.Spells q a)
    (hno : r.intersect q = false) (hs : normalFrom [] s = true) :
    r.Spells (q ++ slash :: s) ⟨a.root, a.sub ++ slash :: s⟩ := by
  cases h with
  | outside hroot => exact .outside ((rootLongest_append hr hno s).trans hroot)
  | top hroot hne hdir hp =>
    have hself := rootMatch_of_intersect hr hno hdir
    rw [hp, rootMatch_iff.2 (.inl rfl)] at hself
    cases hself
  | below hroot hne hdir hsub hp =>
    refine .below ((rootLongest_append hr hno s).trans hroot) hne hdir ?_ ?_
    · rw [normalFrom_append, hsub, hs, Bool.and_self]
    · rw [hp, List.append_assoc, List.cons_append]

/-- An anchor can be gone on from, but for `/` itself. -/
theorem Spells.goes_on (hr : r.Canonical L) {q : Str} {a : Path} (h : r.Spells q a)
    (hnormal : pathNormal q = true) (hne : q ≠ []) (hno : r.intersect q = false)
    (hslash : a ≠ ⟨.none, [slash]⟩) :
    normalFrom [] (normalBody q) = true ∧ a.sub ≠ [] ∧ a.sub.getLast? ≠ some slash := by
  cases h with
  | outside =>
    have hbody := normalFrom_body hnormal hne (fun h => hslash (by rw [h]))
    exact ⟨hbody, hne, getLast?_of_body hbody⟩
  | top hroot hne hdir hp =>
    have hself := rootMatch_of_intersect hr hno hdir
    rw [hp, rootMatch_iff.2 (.inl rfl)] at hself
    cases hself
  | below hroot hne hdir hsub hp =>
    refine ⟨?_, normalFrom_ne_nil hsub, normalFrom_last hsub⟩
    rw [hp, normalBody_append (ne_nil_of_body hdir), normalFrom_append, hdir, hsub, Bool.and_self]

theorem join_of_ne_slash (hr : r.Canonical L) (hL : L.Documented) {q s t : Str} {a j : Path}
    (habs : L.absolute q = true) (hnormal : pathNormal q = true) (h : r.Spells q a)
    (hno : r.intersect q = false) (hslash : a ≠ ⟨.none, [slash]⟩) (hs : pathNormal s = true)
    (hrel : L.absolute s = false) (hjoin : L.join a s = some j) (hspell : r.spell L j = some t) :
    r.make L t = some j := by
  have hne : q ≠ [] := by
    rintro rfl
    rw [hL.relative_nil] at habs
    cases habs
  obtain ⟨hq, hsub, hlast⟩ := h.goes_on hr hnormal hne hno hslash
  rw [FsLib.join, hrel, if_neg (by decide), if_neg hsub] at hjoin
  rcases relative_normal hL hs hrel with rfl | hbody
  · rw [hL.joinPath_nil _ hlast] at hjoin
    obtain rfl := Option.some.inj hjoin
    obtain rfl := Option.some.inj ((h.spell hL).symm.trans hspell)
    exact (hr.make_eq_some habs hnormal).2 h
  · rw [hL.joinPath_of _ _ hsub hlast (normalFrom_ne_nil hbody) (normalFrom_head hbody)] at hjoin
    obtain rfl := Option.some.inj hjoin
    have hbelow := h.append hr hno hbody
    obtain rfl := Option.some.inj ((hbelow.spell hL).symm.trans hspell)
    refine (hr.make_eq_some (hL.absolute_append _ _ habs) ?_).2 hbelow
    rw [pathNormal_append hne, hq, hbody, Bool.and_self]

/-- Below `/` the text is made to the joined path where one slash joins and no root holds the
text. -/
theorem join_slash (hr : r.Canonical L) (hL : L.Documented) {s : Str}
    (h : r.Spells [slash] ⟨.none, [slash]⟩) (hs : pathNormal s = true)
    (hrel : L.absolute s = false) :
    r.make L (L.joinPath [slash] s) = some ⟨.none, L.joinPath [slash] s⟩ ↔
      L.joinPath [slash] s = slash :: s ∧
        ∀ it, r.dirs it ≠ [] → ¬Contains (r.dirs it) (slash :: s) := by
  rcases hL.joinPath_slash s with hone | htwo
  · have hnormal : pathNormal (slash :: s) = true := by
      rcases relative_normal hL hs hrel with rfl | hbody
      · decide
      · exact pathNormal_of_body (by simpa [normalBody] using hbody)
    have hroot : r.rootLongest [slash] = .none := h.root.symm
    have hdirs : ∀ it, r.dirs it ≠ [slash] := by
      intro it hit
      rcases hr.rootLongest_spec [slash] with ⟨-, hno⟩ | ⟨hmatch, -⟩
      · exact hno it ⟨by rw [hit]; exact List.cons_ne_nil _ _, by rw [hit]; decide⟩
      · exact absurd hroot (hr.ne_none hmatch)
    rw [hone, hr.make_eq_some (hL.absolute_slash s) hnormal]
    constructor
    · intro hspells
      refine ⟨rfl, fun it hopen hcontains => ?_⟩
      have hmatch : r.Matches it (slash :: s) :=
        ⟨hopen, (contains_iff_rootMatch (hdirs it)).1 hcontains⟩
      rcases hr.rootLongest_spec (slash :: s) with ⟨-, hno⟩ | ⟨hmatch', -⟩
      · exact hno it hmatch
      · exact absurd hspells.root.symm (hr.ne_none hmatch')
    · rintro ⟨-, hno⟩
      rcases hr.rootLongest_spec (slash :: s) with ⟨hnone, -⟩ | ⟨hmatch, -⟩
      · exact .outside hnone
      · exact absurd ((contains_iff_rootMatch (hdirs _)).2 hmatch.2) (hno _ hmatch.1)
  · have hnot : pathNormal (slash :: slash :: s) = false :=
      (pathNormal_append (a := [slash]) (List.cons_ne_nil _ _) s).trans
        (by simp [normalBody, normalFrom, segNormal])
    have hmake : r.make L (slash :: slash :: s) = none := by simp [make, hnot]
    rw [htwo, hmake]
    constructor
    · exact nofun
    · rintro ⟨heq, -⟩
      have hlen := congrArg List.length heq
      simp at hlen

/-- Text is made to a path and read back, and one text to one path. The root is the deepest
one unless only `/` would be. Below an anchor joining gives what the text is made to, unless
the anchor is `/` and a root is below it. -/
theorem spelling_canonical (hL : L.Documented) (hr : r.Canonical L) :
    (∀ p q, L.absolute p = true → pathNormal p = true → L.absolute q = true →
      pathNormal q = true → (∃ x, r.make L p = some x ∧ r.spell L x = some p) ∧
        (r.make L p = r.make L q ↔ p = q)) ∧
    (∀ p, L.absolute p = true → pathNormal p = true →
      ((∃ x, r.make L p = some x ∧ r.Deepest p x.root) ↔
        ∀ it, r.dirs it = [slash] → Contains [slash] p → p = [slash] ∨
          ∃ it', r.dirs it' ≠ [] ∧ r.dirs it' ≠ [slash] ∧ Contains (r.dirs it') p)) ∧
    ∀ path a s j t, r.anchor L path = some a → pathNormal s = true → L.absolute s = false →
      L.join a s = some j → r.spell L j = some t →
        (r.make L t = some j ↔ a ≠ ⟨.none, [slash]⟩ ∨ L.joinPath [slash] s = slash :: s ∧
          ∀ it, r.dirs it ≠ [] → ¬Contains (r.dirs it) (slash :: s)) := by
  refine ⟨fun p q hp hp' hq hq' => ?_, fun p hp hp' => ?_, ?_⟩
  · obtain ⟨x, hx, -, hspell⟩ := hr.make_spell hL hp hp'
    exact ⟨⟨x, hx, hspell⟩, hr.make_inj hL hp hp' hq hq'⟩
  · obtain ⟨x, hx, hspells, -⟩ := hr.make_spell hL hp hp'
    rw [← hr.deepest_iff hL hp hp', ← hspells.root]
    constructor
    · rintro ⟨y, hy, hdeep⟩
      rwa [Option.some.inj (hx.symm.trans hy)]
    · exact fun hdeep => ⟨x, hx, hdeep⟩
  · intro path a s j t ha hs hrel hj ht
    rcases anchor_eq_some hr hL ha with ⟨hne, hclosed⟩ | ⟨q, habs, hnormal, hspells, hno⟩
    · have hroot : j.root = a.root := by
        rw [FsLib.join, hrel, if_neg (by decide)] at hj
        rw [← Option.some.inj hj]
      rw [spell, hroot, if_neg hne, if_pos hclosed] at ht
      cases ht
    · by_cases hslash : a = ⟨.none, [slash]⟩
      · subst hslash
        have hq : q = [slash] := Option.some.inj ((hspells.spell hL).symm.trans rfl)
        subst hq
        rw [FsLib.join, hrel, if_neg (by decide), if_neg (List.cons_ne_nil _ _)] at hj
        obtain rfl := Option.some.inj hj
        obtain rfl : L.joinPath [slash] s = t := Option.some.inj ht
        rw [join_slash hr hL hspells hs hrel]
        exact ⟨.inr, fun h => h.resolve_left fun hne => hne rfl⟩
      · exact ⟨fun _ => .inl hslash, fun _ =>
          join_of_ne_slash hr hL habs hnormal hspells hno hslash hs hrel hj ht⟩

/-! ## `/` as a root and as an anchor -/

/-- The library where an absolute path begins with a slash. -/
def posix : FsLib where
  absolute s := s.head? = some slash
  joinPath a b := if b = [] then a else if a.getLast? = some slash then a ++ b else a ++ slash :: b

theorem posix_documented : posix.Documented where
  absolute_slash _ := by simp [posix]
  absolute_append a b h := by
    cases a with
    | nil => simp [posix] at h
    | cons c a => simpa [posix] using h
  relative_nil := by simp [posix]
  joinPath_nil _ _ := by simp [posix]
  joinPath_of a b _ ha hb _ := by simp [posix, ha, hb]
  joinPath_slash b := by by_cases hb : b = [] <;> simp [posix, hb]

/-- One root, for the project. -/
def projectAt (dir : Str) : Roots := ⟨fun root => if root = .project then dir else [], 0⟩

theorem canonical_projectAt {dir : Str} (habs : posix.absolute dir = true)
    (hnormal : pathNormal dir = true) : (projectAt dir).Canonical posix where
  none_dir := rfl
  absolute root h := by
    cases root <;> first | exact habs | exact absurd rfl h
  normal root h := by
    cases root <;> first | exact hnormal | exact absurd rfl h

theorem spelling_canonical_home :
    ∃ x, (projectAt (str "/home")).make posix (str "/home/f") = some x ∧
      (projectAt (str "/home")).spell posix x = some (str "/home/f") :=
  ((spelling_canonical posix_documented (canonical_projectAt (by decide +kernel)
    (by decide +kernel))).1 (str "/home/f") (str "/home/f") (by decide +kernel)
    (by decide +kernel) (by decide +kernel) (by decide +kernel)).1

/-- A root at `/` holds `/a`, which is made to no root; and below the anchor `/` there is the
root `/home`. -/
theorem slash_overlooked :
    ((projectAt [slash]).make posix (str "/a") = some ⟨.none, str "/a"⟩ ∧
      ¬(projectAt [slash]).Deepest (str "/a") .none) ∧
    ((projectAt (str "/home")).anchor posix ⟨.none, [slash]⟩ = some ⟨.none, [slash]⟩ ∧
      posix.join ⟨.none, [slash]⟩ (str "home/f") = some ⟨.none, str "/home/f"⟩ ∧
      (projectAt (str "/home")).make posix (str "/home/f") = some ⟨.project, str "f"⟩) := by
  refine ⟨⟨by decide +kernel, ?_⟩, by decide +kernel, by decide +kernel, by decide +kernel⟩
  intro hdeep
  rcases hdeep with ⟨-, hno⟩ | ⟨hopen, -⟩
  · exact hno .project (by decide) (.inr ⟨str "a", by decide⟩)
  · exact hopen rfl

end Roots
end Spn
