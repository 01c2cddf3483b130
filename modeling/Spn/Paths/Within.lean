import Spn.Paths.Spelling

/-! # Within a directory

`spn_path_within` compares the texts of two paths under one root; `spn_path_parent` cuts a path
at its last slash. Of paths made of normal components the two see the same directories above a
path, but for `/`.
-/
namespace Spn

/-- `spn_path_rel_t`. -/
structure Rel where
  within : Bool
  sub : Str
  deriving DecidableEq, Repr

namespace Path

variable {L : FsLib}

/-- `spn_path_within`. -/
def within (base path : Path) : Rel :=
  if base.root ≠ path.root then ⟨false, []⟩
  else if base.sub = [] then ⟨base.root ≠ .none, path.sub⟩
  else if ¬base.sub <+: path.sub then ⟨false, []⟩
  else if path.sub.length = base.sub.length then ⟨true, []⟩
  else if path.sub[base.sub.length]? ≠ some slash then ⟨false, []⟩
  else ⟨true, path.sub.drop (base.sub.length + 1)⟩

/-- A path made of normal components: it is not the empty path, `spn_path_normal` holds of its
text, and what is under a root or follows a slash is a relative path. -/
structure Normal (L : FsLib) (p : Path) : Prop where
  nonempty : p.empty = false
  normal : pathNormal p.sub = true
  under : p.root ≠ .none → L.absolute p.sub = false
  after : ∀ a rest, p.sub = a ++ slash :: rest → L.absolute rest = false

/-- The path goes on from the directory: under the root itself, after `/`, or after a slash. -/
def Below (base path : Path) : Prop :=
  base.root = path.root ∧
    (base.root ≠ .none ∧ base.sub = [] ∧ path.sub ≠ [] ∨
      (base.root = .none ∧ base.sub = [slash] ∧ ∃ rest, rest ≠ [] ∧ path.sub = slash :: rest) ∨
      base.sub ≠ [] ∧ ∃ rest, path.sub = base.sub ++ slash :: rest)

/-! ## The last slash -/

theorem lastSlash_none {s : Str} (h : slash ∉ s) : lastSlash s = none := by
  rw [lastSlash, Option.map_eq_none_iff, List.findIdx?_eq_none_iff]
  intro c hc
  have hne : c ≠ slash := fun heq => h (heq ▸ List.mem_reverse.1 hc)
  simpa using hne

theorem lastSlash_cut (a : Str) {b : Str} (hb : slash ∉ b) :
    lastSlash (a ++ slash :: b) = some a.length := by
  have hidx : (a ++ slash :: b).reverse.findIdx? (· = slash) = some b.length := by
    rw [List.findIdx?_eq_some_iff_getElem]
    refine ⟨by simp, by simp, fun j hj => ?_⟩
    have hlt : j < b.reverse.length := by simpa using hj
    have hget : (a ++ slash :: b).reverse[j]? = b.reverse[j]? := by
      rw [List.reverse_append, List.reverse_cons, List.append_assoc]
      exact List.getElem?_append_left hlt
    have hmem : b.reverse[j] ∈ b := List.mem_reverse.1 (List.getElem_mem hlt)
    have hsome := hget.trans (List.getElem?_eq_getElem hlt)
    obtain ⟨hin, heq⟩ := List.getElem?_eq_some_iff.1 hsome
    have hne : (a ++ slash :: b).reverse[j] ≠ slash := fun h => hb (heq.symm.trans h ▸ hmem)
    simpa only [decide_eq_true_eq] using hne
  rw [lastSlash, hidx, Option.map_some, List.length_append, List.length_cons]
  congr 1
  omega

/-- A text has no slash, or is cut at its last one. -/
theorem cut_last (s : Str) : slash ∉ s ∨ ∃ a b, s = a ++ slash :: b ∧ slash ∉ b := by
  induction s with
  | nil => exact .inl List.not_mem_nil
  | cons c s ih =>
    obtain hno | ⟨a, b, rfl, hb⟩ := ih
    · by_cases hc : c = slash
      · exact .inr ⟨[], s, by rw [hc, List.nil_append], hno⟩
      · exact .inl (by simp [hno, Ne.symm hc])
    · exact .inr ⟨c :: a, b, rfl, hb⟩

theorem parent_plain {p : Path} (h : slash ∉ p.sub) : p.parent = ⟨p.root, []⟩ := by
  rw [parent, lastSlash_none h]

theorem parent_cut {root : PathRoot} {a b : Str} (ha : a ≠ []) (hb : slash ∉ b) :
    (Path.mk root (a ++ slash :: b)).parent = ⟨root, a⟩ := by
  cases a with
  | nil => exact absurd rfl ha
  | cons c a =>
    rw [parent, lastSlash_cut (c :: a) hb]
    exact congrArg (Path.mk root) (@List.take_left _ (c :: a) (slash :: b))

theorem parent_top {root : PathRoot} {b : Str} (hb : slash ∉ b) :
    (Path.mk root (slash :: b)).parent = ⟨root, [slash]⟩ := by
  have hlast := lastSlash_cut [] hb
  rw [List.nil_append] at hlast
  rw [parent, hlast]
  rfl

/-! ## The walk -/

/-- What precedes the last slash of a normal path is a normal path. -/
theorem Normal.cut {root : PathRoot} {a b : Str} (hL : L.Documented)
    (h : (Path.mk root (a ++ slash :: b)).Normal L) (ha : a ≠ []) :
    (Path.mk root a).Normal L where
  nonempty := by simp [empty, ha]
  normal := by
    have hnormal := h.normal
    rw [pathNormal_append ha, Bool.and_eq_true] at hnormal
    exact pathNormal_of_body hnormal.1
  under hroot := by
    by_contra habs
    rw [Bool.not_eq_false] at habs
    exact absurd (hL.absolute_append _ (slash :: b) habs) (by simp [h.under hroot])
  after x rest hsub := by
    by_contra habs
    rw [Bool.not_eq_false] at habs
    have hrest := h.after x (rest ++ slash :: b) (by
      change a = x ++ slash :: rest at hsub
      change a ++ slash :: b = _
      rw [hsub, List.append_assoc, List.cons_append])
    rw [hL.absolute_append _ (slash :: b) habs] at hrest
    cases hrest

/-- Under a named root there is no leading slash. -/
theorem Normal.root_of_slash {p : Path} {s : Str} (hL : L.Documented) (h : p.Normal L)
    (hsub : p.sub = slash :: s) : p.root = .none := by
  by_contra hroot
  have hrel := h.under hroot
  rw [hsub, hL.absolute_slash] at hrel
  cases hrel

/-- Two texts cut at a slash, one of them at its last: they are cut at one place, or the other
is cut before. -/
theorem append_slash_eq {a b x rest : Str} (hb : slash ∉ b) :
    a ++ slash :: b = x ++ slash :: rest ↔
      x = a ∧ rest = b ∨ ∃ mid, a = x ++ slash :: mid ∧ rest = mid ++ slash :: b := by
  constructor
  · intro heq
    rcases List.append_eq_append_iff.1 heq with ⟨mid, hx, hmid⟩ | ⟨mid, ha, hmid⟩
    · cases mid with
      | nil =>
        rw [List.append_nil] at hx
        rw [List.nil_append] at hmid
        exact .inl ⟨hx, (List.cons_eq_cons.1 hmid).2.symm⟩
      | cons c mid =>
        rw [List.cons_append] at hmid
        have hin : slash ∈ b := by
          rw [(List.cons_eq_cons.1 hmid).2]
          simp
        exact absurd hin hb
    · cases mid with
      | nil =>
        rw [List.append_nil] at ha
        rw [List.nil_append] at hmid
        exact .inl ⟨ha.symm, (List.cons_eq_cons.1 hmid).2⟩
      | cons c mid =>
        rw [List.cons_append] at hmid
        obtain ⟨hc, hrest⟩ := List.cons_eq_cons.1 hmid
        exact .inr ⟨mid, by rw [ha, hc], hrest⟩
  · rintro (⟨rfl, rfl⟩ | ⟨mid, rfl, rfl⟩)
    · rfl
    · rw [List.append_assoc, List.cons_append]

theorem below_plain {base : Path} {root : PathRoot} {sub : Str} (hplain : slash ∉ sub) :
    Below base ⟨root, sub⟩ ↔ root ≠ .none ∧ sub ≠ [] ∧ base = ⟨root, []⟩ := by
  have hrest : ∀ x rest, sub ≠ x ++ slash :: rest := fun x rest heq =>
    hplain (by rw [heq]; simp)
  obtain ⟨root', sub'⟩ := base
  simp only [Below, Path.mk.injEq]
  constructor
  · rintro ⟨rfl, ⟨hroot, hsub, hne⟩ | ⟨-, -, rest, -, heq⟩ | ⟨-, rest, heq⟩⟩
    · exact ⟨hroot, hne, rfl, hsub⟩
    · exact absurd heq (hrest [] rest)
    · exact absurd heq (hrest _ rest)
  · rintro ⟨hroot, hne, rfl, hsub⟩
    exact ⟨rfl, .inl ⟨hroot, hsub, hne⟩⟩

theorem below_top {base : Path} {b : Str} (hb : slash ∉ b) :
    Below base ⟨.none, slash :: b⟩ ↔ b ≠ [] ∧ base = ⟨.none, [slash]⟩ := by
  obtain ⟨root', sub'⟩ := base
  simp only [Below, Path.mk.injEq]
  constructor
  · rintro ⟨rfl, ⟨hroot, -, -⟩ | ⟨-, hsub, rest, hrest, heq⟩ | ⟨hsub, rest, heq⟩⟩
    · exact absurd rfl hroot
    · exact ⟨by rwa [(List.cons_eq_cons.1 heq).2], rfl, hsub⟩
    · obtain ⟨hnil, -⟩ | ⟨mid, hmid, -⟩ := (append_slash_eq (a := []) hb).1 heq
      · exact absurd hnil hsub
      · exact absurd hmid.symm (by simp)
  · rintro ⟨hne, rfl, rfl⟩
    exact ⟨rfl, .inr (.inl ⟨rfl, rfl, b, hne, rfl⟩)⟩

theorem below_cut {base : Path} {root : PathRoot} {a b : Str} (ha : a ≠ []) (hb : slash ∉ b)
    (hnormal : pathNormal (a ++ slash :: b) = true) :
    Below base ⟨root, a ++ slash :: b⟩ ↔ base = ⟨root, a⟩ ∨ Below base ⟨root, a⟩ := by
  obtain ⟨root', sub'⟩ := base
  simp only [Below, Path.mk.injEq]
  constructor
  · rintro ⟨rfl, ⟨hroot, hsub, -⟩ | ⟨hroot, hsub, rest, -, heq⟩ | ⟨hsub, rest, heq⟩⟩
    · exact .inr ⟨rfl, .inl ⟨hroot, hsub, ha⟩⟩
    · obtain ⟨hnil, -⟩ | ⟨mid, hmid, -⟩ := (append_slash_eq (x := []) hb).1 heq
      · exact absurd hnil.symm ha
      · -- `//` is not normal
        have hmidne : mid ≠ [] := by
          rintro rfl
          rw [hmid, pathNormal_append (by simp)] at hnormal
          simp [normalBody, normalFrom, segNormal] at hnormal
        exact .inr ⟨rfl, .inr (.inl ⟨hroot, hsub, mid, hmidne, hmid⟩)⟩
    · obtain ⟨hx, -⟩ | ⟨mid, hmid, -⟩ := (append_slash_eq hb).1 heq
      · exact .inl ⟨rfl, hx⟩
      · exact .inr ⟨rfl, .inr (.inr ⟨hsub, mid, hmid⟩)⟩
  · rintro (⟨rfl, rfl⟩ | ⟨rfl, ⟨hroot, hsub, -⟩ | ⟨hroot, hsub, rest, hrest, heq⟩ |
      ⟨hsub, rest, heq⟩⟩)
    · exact ⟨rfl, .inr (.inr ⟨ha, b, rfl⟩)⟩
    · exact ⟨rfl, .inl ⟨hroot, hsub, by simp⟩⟩
    · exact ⟨rfl, .inr (.inl ⟨hroot, hsub, rest ++ slash :: b, by simp, by
        rw [heq, List.cons_append]⟩)⟩
    · exact ⟨rfl, .inr (.inr ⟨hsub, rest ++ slash :: b, by
        rw [heq, List.append_assoc, List.cons_append]⟩)⟩

theorem up_root (root : PathRoot) : (Path.mk root []).up = none := by
  rw [up, parent_plain (by simp), if_pos (.inl rfl)]

theorem up_top : (Path.mk .none [slash]).up = none := by
  rw [up, parent_top (by simp), if_pos (.inl rfl)]

/-- The walk from a path to its parents visits what the path goes on from. -/
theorem Normal.mem_ancestors (hL : L.Documented) {base path : Path} (h : path.Normal L) :
    base ∈ path.ancestors ↔ Below base path := by
  generalize hn : path.sub.length = n
  induction n using Nat.strong_induction_on generalizing path with
  | _ n ih =>
    obtain ⟨root, sub⟩ := path
    obtain hplain | ⟨a, b, rfl, hb⟩ := cut_last sub
    · -- one component, or the root itself
      rw [below_plain hplain]
      by_cases hroot : root = .none ∨ sub = []
      · have hup : (Path.mk root sub).up = none := by
          rw [up, parent_plain hplain, if_pos]
          obtain rfl | rfl := hroot
          · exact .inr (by simp [empty])
          · exact .inl rfl
        rw [ancestors_of_up_none hup]
        simp only [List.not_mem_nil, false_iff]
        exact fun hright => hroot.elim hright.1 hright.2.1
      · push Not at hroot
        have hup : (Path.mk root sub).up = some ⟨root, []⟩ := by
          rw [up, parent_plain hplain, if_neg]
          simp [empty, hroot.1, Ne.symm hroot.2]
        rw [ancestors_of_up_some hup, ancestors_of_up_none (up_root root), List.mem_singleton]
        exact ⟨fun heq => ⟨hroot.1, hroot.2, heq⟩, fun hright => hright.2.2⟩
    · by_cases ha : a = []
      · -- right under `/`, or `/` itself
        subst ha
        obtain rfl : root = .none := h.root_of_slash hL rfl
        rw [List.nil_append, below_top hb]
        by_cases hne : b = []
        · subst hne
          rw [ancestors_of_up_none up_top]
          simp
        · have hup : (Path.mk .none (slash :: b)).up = some ⟨.none, [slash]⟩ := by
            rw [up, parent_top hb, if_neg]
            simp [empty, Ne.symm hne]
          rw [ancestors_of_up_some hup, ancestors_of_up_none up_top, List.mem_singleton]
          exact ⟨fun heq => ⟨hne, heq⟩, fun hright => hright.2⟩
      · -- a component under a directory
        have hup : (Path.mk root (a ++ slash :: b)).up = some ⟨root, a⟩ := by
          rw [up, parent_cut ha hb, if_neg]
          simp [empty, ha]
        have hlen : a.length < n := by
          rw [← hn]
          simp
        rw [ancestors_of_up_some hup, List.mem_cons, ih a.length hlen (h.cut hL ha) rfl,
          below_cut ha hb h.normal]

theorem parent_nil (root : PathRoot) : (Path.mk root []).parent = ⟨root, []⟩ :=
  parent_plain (by simp)

/-- Taking parents again and again reaches what the walk visits, and the empty path. -/
theorem iterate_parent {base path : Path} {n : ℕ} (h : parent^[n] path = base)
    (hbase : base.empty = false) : base = path ∨ base ∈ path.ancestors := by
  induction n generalizing path with
  | zero => exact .inl h.symm
  | succ n ih =>
    rw [Function.iterate_succ_apply] at h
    cases hup : path.up with
    | some q =>
      obtain ⟨rfl, -⟩ := up_eq_some hup
      rw [ancestors_of_up_some hup, List.mem_cons]
      exact .inr (ih h)
    | none =>
      rw [up] at hup
      split_ifs at hup with hstop
      obtain hself | hempty := hstop
      · rw [hself] at h
        exact ih h
      · -- the empty path is its own parent
        have hnil : path.parent = ⟨.none, []⟩ := by simpa [empty, Path.ext_iff] using hempty
        rw [hnil, Function.iterate_fixed (parent_nil .none)] at h
        rw [← h] at hbase
        cases hbase

theorem exists_iterate {base path : Path} (h : base ∈ path.ancestors) :
    ∃ n, parent^[n] path = base := by
  generalize hn : path.sub.length = n
  induction n using Nat.strong_induction_on generalizing path with
  | _ n ih =>
    cases hup : path.up with
    | none =>
      rw [ancestors_of_up_none hup] at h
      cases h
    | some q =>
      have hlt := up_length hup
      obtain ⟨rfl, -⟩ := up_eq_some hup
      rw [ancestors_of_up_some hup, List.mem_cons] at h
      obtain rfl | hrest := h
      · exact ⟨1, rfl⟩
      · obtain ⟨k, hk⟩ := ih _ (by omega) hrest rfl
        exact ⟨k + 1, by rw [Function.iterate_succ_apply, hk]⟩

theorem reached_iff {base path : Path} (hbase : base.empty = false) :
    (∃ n, parent^[n] path = base) ↔ base = path ∨ base ∈ path.ancestors := by
  constructor
  · rintro ⟨n, hn⟩
    exact iterate_parent hn hbase
  · rintro (rfl | hmem)
    · exact ⟨0, rfl⟩
    · exact exists_iterate hmem

/-- No directory is visited twice. -/
theorem nodup_ancestors (p : Path) : p.ancestors.Nodup := by
  generalize hn : p.sub.length = n
  induction n using Nat.strong_induction_on generalizing p with
  | _ n ih =>
    cases hup : p.up with
    | none =>
      rw [ancestors_of_up_none hup]
      exact List.nodup_nil
    | some q =>
      have hlt := up_length hup
      rw [ancestors_of_up_some hup]
      exact List.nodup_cons.2 ⟨self_not_mem_ancestors q, ih _ (by omega) q rfl⟩

/-! ## The comparison -/

theorem within_of_root {base path : Path} (hroot : base.root = path.root) (hsub : base.sub = []) :
    within base path = ⟨base.root ≠ .none, path.sub⟩ := by
  rw [within, if_neg (not_not.2 hroot), if_pos hsub]

theorem within_self {path : Path} (hsub : path.sub ≠ []) : within path path = ⟨true, []⟩ := by
  rw [within, if_neg (not_not.2 rfl), if_neg hsub, if_neg (not_not.2 (List.prefix_refl _)),
    if_pos rfl]

theorem within_append {root : PathRoot} {a rest : Str} (ha : a ≠ []) :
    within ⟨root, a⟩ ⟨root, a ++ slash :: rest⟩ = ⟨true, rest⟩ := by
  have hlen : (a ++ slash :: rest).length ≠ a.length := by simp
  have hat : (a ++ slash :: rest)[a.length]? = some slash := by simp
  rw [within, if_neg (not_not.2 rfl), if_neg ha, if_neg (not_not.2 (List.prefix_append _ _)),
    if_neg hlen, if_neg (not_not.2 hat)]
  congr 1
  exact Roots.drop_dir a rest

/-- What the comparison finds. -/
theorem within_cases {base path : Path} (h : (within base path).within = true) :
    base.root = path.root ∧
      (base.root ≠ .none ∧ base.sub = [] ∨
        base.sub ≠ [] ∧ (path.sub = base.sub ∨ ∃ rest, path.sub = base.sub ++ slash :: rest)) := by
  rw [within] at h
  split_ifs at h with hroot hsub hpre hlen hat
  · exact ⟨not_not.1 hroot, .inl ⟨by simpa using h, hsub⟩⟩
  · obtain ⟨rest, hrest⟩ := hpre
    rw [← hrest, List.length_append] at hlen
    have hnil : rest = [] := List.length_eq_zero_iff.1 (by omega)
    rw [hnil, List.append_nil] at hrest
    exact ⟨not_not.1 hroot, .inr ⟨hsub, .inl hrest.symm⟩⟩
  · obtain ⟨rest, hrest⟩ := hpre
    refine ⟨not_not.1 hroot, .inr ⟨hsub, .inr ?_⟩⟩
    rw [not_not, ← hrest, List.getElem?_append_right le_rfl, Nat.sub_self] at hat
    cases rest with
    | nil => cases hat
    | cons c rest =>
      cases hat
      exact ⟨rest, hrest.symm⟩

/-- The one directory the comparison overlooks: `/`, of a path that goes on from it. -/
def Overlooked (base path : Path) : Prop :=
  base = ⟨.none, [slash]⟩ ∧ path ≠ base ∧ path.root = .none ∧ path.sub.head? = some slash

theorem Normal.overlooked_iff {base path : Path} (h : path.Normal L) :
    Overlooked base path ↔ Below base path ∧ (within base path).within = false := by
  constructor
  · rintro ⟨rfl, hne, hroot, hhead⟩
    obtain ⟨rest, hrest⟩ := List.head?_eq_some_iff.1 hhead
    have hsome : rest ≠ [] := by
      rintro rfl
      exact hne (Path.ext hroot hrest)
    refine ⟨⟨hroot.symm, .inr (.inl ⟨rfl, rfl, rest, hsome, hrest⟩)⟩, ?_⟩
    by_contra hin
    rw [Bool.not_eq_false] at hin
    obtain ⟨-, ⟨hno, -⟩ | ⟨-, heq | ⟨tail, heq⟩⟩⟩ := within_cases hin
    · exact hno rfl
    · exact hne (Path.ext hroot heq)
    · have hnormal := h.normal
      rw [heq, pathNormal_append (by simp)] at hnormal
      simp [normalBody, normalFrom, segNormal] at hnormal
  · rintro ⟨⟨hroot, ⟨hnone, hsub, -⟩ | ⟨hnone, hsub, rest, hrest, heq⟩ | ⟨hsub, rest, heq⟩⟩, hout⟩
    · rw [within_of_root hroot hsub] at hout
      exact absurd hnone (by simpa using hout)
    · refine ⟨Path.ext hnone hsub, ?_, hroot ▸ hnone, by rw [heq]; rfl⟩
      rintro rfl
      rw [hsub] at heq
      exact hrest (List.cons_eq_cons.1 heq).2.symm
    · obtain ⟨root, sub⟩ := base
      obtain ⟨root', sub'⟩ := path
      obtain rfl : root = root' := hroot
      obtain rfl : sub' = sub ++ slash :: rest := heq
      rw [within_append hsub] at hout
      cases hout

/-- The comparison finds the path itself and, but for `/`, what the walk visits. -/
theorem Normal.within_iff (hL : L.Documented) {base path : Path} (hp : path.Normal L) :
    (within base path).within = true ↔
      (base = path ∨ base ∈ path.ancestors) ∧ ¬Overlooked base path := by
  rw [hp.mem_ancestors hL]
  constructor
  · intro h
    refine ⟨?_, fun hover => ?_⟩
    · obtain ⟨hroot, ⟨hnone, hsub⟩ | ⟨hsub, heq | hrest⟩⟩ := within_cases h
      · by_cases hpath : path.sub = []
        · exact .inl (Path.ext hroot (hsub.trans hpath.symm))
        · exact .inr ⟨hroot, .inl ⟨hnone, hsub, hpath⟩⟩
      · exact .inl (Path.ext hroot heq.symm)
      · exact .inr ⟨hroot, .inr (.inr ⟨hsub, hrest⟩)⟩
    · rw [(hp.overlooked_iff.1 hover).2] at h
      cases h
  · rintro ⟨rfl | hbelow, hover⟩
    · by_cases hsub : base.sub = []
      · have hroot : base.root ≠ .none := by
          intro hnone
          have hempty := hp.nonempty
          simp [empty, hnone, hsub] at hempty
        rw [within_of_root rfl hsub]
        exact decide_eq_true hroot
      · rw [within_self hsub]
    · by_contra hout
      rw [Bool.not_eq_true] at hout
      exact hover (hp.overlooked_iff.2 ⟨hbelow, hout⟩)

/-- Joining the directory with what was found below it gives the path. -/
theorem Normal.join_within (hL : L.Documented) (hslash : L.joinPath [slash] [] = [slash])
    {base path : Path} (hb : base.Normal L) (hp : path.Normal L)
    (h : (within base path).within = true) :
    L.join base (within base path).sub = some path := by
  obtain ⟨root, sub⟩ := base
  obtain ⟨root', sub'⟩ := path
  obtain ⟨hroot, hcases⟩ := within_cases h
  obtain rfl : root = root' := hroot
  obtain ⟨hnone, hsub⟩ | ⟨hsub, heq | ⟨rest, heq⟩⟩ := hcases
  · obtain rfl : sub = [] := hsub
    have hin : within ⟨root, []⟩ ⟨root, sub'⟩ = ⟨root ≠ .none, sub'⟩ := within_of_root rfl rfl
    rw [hin, FsLib.join, hp.under hnone, if_neg (by decide), if_pos rfl]
  · obtain rfl : sub' = sub := heq
    have hjoin : L.joinPath sub' [] = sub' := by
      by_cases htop : sub' = [slash]
      · rw [htop, hslash]
      · exact hL.joinPath_nil _ (getLast?_of_body (normalFrom_body hb.normal hsub htop))
    rw [within_self hsub, FsLib.join, hL.relative_nil, if_neg (by decide), if_neg hsub, hjoin]
  · obtain rfl : sub' = sub ++ slash :: rest := heq
    have hnormal := hp.normal
    rw [pathNormal_append hsub, Bool.and_eq_true] at hnormal
    rw [within_append hsub, FsLib.join, hp.after _ _ rfl, if_neg (by decide), if_neg hsub,
      hL.joinPath_of _ _ hsub (getLast?_of_body hnormal.1) (normalFrom_ne_nil hnormal.2)
        (normalFrom_head hnormal.2)]

/-- The comparison finds the directories that taking parents reaches, and what it finds below one
is what to join with it. -/
def Agrees (L : FsLib) (base path : Path) : Prop :=
  ((within base path).within = true ↔ ∃ n, parent^[n] path = base) ∧
    ((within base path).within = true → L.join base (within base path).sub = some path)

theorem agrees_iff_not_overlooked (hL : L.Documented)
    (hslash : L.joinPath [slash] [] = [slash]) {base path : Path} (hb : base.Normal L)
    (hp : path.Normal L) : Agrees L base path ↔ ¬Overlooked base path := by
  rw [Agrees, hp.within_iff hL, reached_iff hb.nonempty]
  constructor
  · intro hagrees hover
    have hmem := (hp.mem_ancestors hL).2 (hp.overlooked_iff.1 hover).1
    exact (hagrees.1.2 (.inr hmem)).2 hover
  · intro hno
    refine ⟨⟨fun h => h.1, fun h => ⟨h, hno⟩⟩, fun h => ?_⟩
    exact hb.join_within hL hslash hp ((hp.within_iff hL).2 h)

/-- Where an absolute path is one that begins with a slash, `spn_path_normal` says it all but for
a slash under a root. -/
theorem normal_posix {p : Path} (hfull : p.empty = false) (hnormal : pathNormal p.sub = true)
    (hunder : p.root ≠ .none → Roots.posix.absolute p.sub = false) : p.Normal Roots.posix where
  nonempty := hfull
  normal := hnormal
  under := hunder
  after a rest hsub := by
    have hrest : rest.head? ≠ some slash := by
      rw [hsub] at hnormal
      cases a with
      | nil =>
        rw [List.nil_append, pathNormal, Bool.or_eq_true, normalBody, if_pos rfl] at hnormal
        obtain hnil | hbody := hnormal
        · rw [of_decide_eq_true hnil]
          exact fun h => by cases h
        · exact normalFrom_head hbody
      | cons c a =>
        rw [pathNormal_append (List.cons_ne_nil c a), Bool.and_eq_true] at hnormal
        exact normalFrom_head hnormal.2
    exact decide_eq_false hrest

end Path
end Spn
