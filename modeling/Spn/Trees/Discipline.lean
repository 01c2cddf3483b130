import Spn.Trees.Kept

/-! # Every step keeps it

No operation of a caller that is lawful, nor the commands, nor the end of a process, break
the invariant or take a fact from a caller, in the runs that are careful.
-/
namespace Spn.Trees

open Spn.Lib

section

variable {Content : Type} {T : Tools Content} {H : Hashes} {K : Callers} {D : Set Key}
variable {s : Cache Content}

/-! ## Changes in a place of a caller -/

theorem whole_put {p : CachePath} {y : Option Content} {k : Key} (h : s.Whole k)
    (hy : p = .db k → y.isSome) : (s.put p y).Whole k := by
  refine ⟨?_, h.notRemains, h.notInProgress⟩
  by_cases hp : p = .db k
  · subst hp
    simpa [Cache.put] using hy rfl
  · simpa [Cache.put, Function.update_of_ne (Ne.symm hp)] using h.there

theorem put_files_self (p : CachePath) (y : Option Content) : (s.put p y).files p = y :=
  Function.update_self ..

theorem put_files_of_ne {p q : CachePath} (y : Option Content) (h : q ≠ p) :
    (s.put p y).files q = s.files q := Function.update_of_ne h ..

/-- A place named after a caller is none of the shared ones. -/
theorem ne_of_caller {p q : CachePath} {c : ℕ} (hp : p.caller = some c)
    (hq : q.caller = none) : q ≠ p := by
  rintro rfl
  rw [hp] at hq
  cases hq

theorem settled_put {p : CachePath} {y : Option Content} {m : Mutex}
    (h : Settled D s m) (hy : (∃ k, p = .db k ∨ p = .checkout k) → y.isSome) :
    Settled D (s.put p y) m := by
  cases m with
  | db k => exact fun hk => whole_put (h hk) fun hp => hy ⟨k, .inl hp⟩
  | checkout k =>
    change ((s.put p y).files (.checkout k)).isSome
    by_cases hp : CachePath.checkout k = p
    · rw [← hp, put_files_self]
      exact hy ⟨k, .inr hp.symm⟩
    · rw [put_files_of_ne _ hp]
      exact h

theorem Inv.put_own {p : CachePath} {c : ℕ} (h : Inv T H K D s) (hp : p.caller = some c)
    (y : Option Content) : Inv T H K D (s.put p y) where
  child := h.child
  alone := h.alone
  db k hk x hx := h.db k hk x (by rwa [put_files_of_ne _ (ne_of_caller hp rfl)] at hx)
  checkout k x hx := h.checkout k x (by rwa [put_files_of_ne _ (ne_of_caller hp rfl)] at hx)
  toolchain sha256 x hx :=
    h.toolchain sha256 x (by rwa [put_files_of_ne _ (ne_of_caller hp rfl)] at hx)
  entry process m hh hr he := settled_put (h.entry process m hh hr he) (by
    rintro ⟨k, rfl | rfl⟩ <;> cases hp)

/-- What is changed in a place of caller `c`, every fact but those about it survives. -/
theorem holds_put_own {p : CachePath} {c c' : ℕ} {f : Fact Content} {y : Option Content}
    (hp : p.caller = some c) (h : Holds T K D c' f s)
    (hplace : c' = c → (∀ x, f ≠ .has p x) ∧
      ∀ cmd input before, f = .awaits cmd p input before →
        ∃ exit, s.children c = some ⟨cmd, p, input, before, exit⟩ ∧ exit ≠ some true) :
    Holds T K D c' f (s.put p y) := by
  cases f with
  | rests => exact h
  | holds m e => exact h
  | has q x =>
    obtain ⟨hq, hx, hch⟩ := h
    have hne : q ≠ p := by
      rintro rfl
      have hc : c' = c := Option.some.inj (hq.symm.trans hp)
      exact (hplace hc).1 x rfl
    exact ⟨hq, by rwa [put_files_of_ne _ hne], hch⟩
  | awaits cmd q input before =>
    obtain ⟨hq, exit, hch, hdone⟩ := h
    refine ⟨hq, exit, hch, fun he => ?_⟩
    have hne : q ≠ p := by
      rintro rfl
      have hc : c' = c := Option.some.inj (hq.symm.trans hp)
      subst hc
      obtain ⟨exit', hch', hne⟩ := (hplace rfl).2 cmd input before rfl
      rw [hch] at hch'
      cases hch'
      exact hne he
    obtain ⟨x, hx, hd⟩ := hdone he
    exact ⟨x, by rwa [put_files_of_ne _ hne], hd⟩
  | clones k =>
    obtain ⟨child, hch, hb, hpath, hw⟩ := h
    exact ⟨child, hch, hb, hpath, fun he hk => whole_put (hw he hk) (by
      rintro rfl; cases hp)⟩
  | whole k => exact fun hk => whole_put (h hk) (by rintro rfl; cases hp)
  | placed q =>
    refine ⟨h.1, ?_⟩
    have hne : q ≠ p := by
      rintro rfl
      obtain ⟨hf, -⟩ := h
      cases q <;> simp [CachePath.final, CachePath.caller] at hf hp
    rw [put_files_of_ne _ hne]
    exact h.2

/-! ## Changes in a shared place -/

/-- What is there stays there, so no fact is lost. -/
theorem holds_put_shared {q : CachePath} {c : ℕ} {f : Fact Content} {y : Content}
    (hq : q.caller = none) (h : Holds T K D c f s) :
    Holds T K D c f (s.put q (some y)) := by
  cases f with
  | rests => exact h
  | holds m e => exact h
  | has p x =>
    obtain ⟨hp, hx, hch⟩ := h
    exact ⟨hp, by rwa [put_files_of_ne _ (ne_of_caller hp hq).symm], hch⟩
  | awaits cmd p input before =>
    obtain ⟨hp, exit, hch, hdone⟩ := h
    refine ⟨hp, exit, hch, fun he => ?_⟩
    obtain ⟨x, hx, hd⟩ := hdone he
    exact ⟨x, by rwa [put_files_of_ne _ (ne_of_caller hp hq).symm], hd⟩
  | clones k =>
    obtain ⟨child, hch, hb, hpath, hw⟩ := h
    exact ⟨child, hch, hb, hpath, fun he hk => whole_put (hw he hk) fun _ => rfl⟩
  | whole k => exact fun hk => whole_put (h hk) fun _ => rfl
  | placed p =>
    refine ⟨h.1, ?_⟩
    by_cases hp : p = q
    · rw [hp, put_files_self]; rfl
    · rw [put_files_of_ne _ hp]; exact h.2

theorem Inv.put_shared {q : CachePath} {y : Content} (h : Inv T H K D s)
    (hdb : ∀ k ∈ D, q = .db k → s.remains k = true ∨ s.InProgress k ∨
      ∃ url, K.Asked url ∧ H.gitDbKey url = k ∧ T.Cloned url y)
    (hcheckout : ∀ k, q = .checkout k →
      ∃ id, K.AskedCheckout id ∧ H.gitCheckoutKey id = k ∧ T.CheckedOut H id y)
    (htoolchain : ∀ sha256, q = .toolchain sha256 → T.Extracted sha256 y) :
    Inv T H K D (s.put q (some y)) where
  child := h.child
  alone := h.alone
  db k hk x hx := by
    by_cases hq : CachePath.db k = q
    · rw [← hq, put_files_self] at hx
      cases hx
      exact hdb k hk hq.symm
    · exact h.db k hk x (by rwa [put_files_of_ne _ hq] at hx)
  checkout k x hx := by
    by_cases hq : CachePath.checkout k = q
    · rw [← hq, put_files_self] at hx
      cases hx
      exact hcheckout k hq.symm
    · exact h.checkout k x (by rwa [put_files_of_ne _ hq] at hx)
  toolchain sha256 x hx := by
    by_cases hq : CachePath.toolchain sha256 = q
    · rw [← hq, put_files_self] at hx
      cases hx
      exact htoolchain sha256 hq.symm
    · exact h.toolchain sha256 x (by rwa [put_files_of_ne _ hq] at hx)
  entry process m hh hr he := settled_put (h.entry process m hh hr he) fun _ => rfl

/-! ## Changes elsewhere -/

/-- A fact is about the files, the command of its caller, its entries, and what is whole. -/
theorem holds_of_same {c : ℕ} {t : Cache Content} {f : Fact Content} (h : Holds T K D c f s)
    (hfiles : t.files = s.files) (hchild : t.children c = s.children c)
    (hwhole : ∀ k ∈ D, s.Whole k → t.Whole k)
    (hheld : ∀ m e, f = .holds m e → Holds T K D c f t) : Holds T K D c f t := by
  cases f with
  | rests => exact hchild.trans h
  | holds m e => exact hheld m e rfl
  | has p x =>
    obtain ⟨hp, hx, hch⟩ := h
    exact ⟨hp, hfiles ▸ hx, hchild ▸ hch⟩
  | awaits cmd p input before =>
    obtain ⟨hp, exit, hch, hdone⟩ := h
    exact ⟨hp, exit, hchild ▸ hch, hfiles ▸ hdone⟩
  | clones k =>
    obtain ⟨child, hch, hb, hpath, hw⟩ := h
    exact ⟨child, hchild ▸ hch, hb, hpath, fun he hk => hwhole k hk (hw he hk)⟩
  | whole k => exact fun hk => hwhole k hk (h hk)
  | placed p => exact ⟨h.1, hfiles ▸ h.2⟩

theorem settled_of_same {t : Cache Content} {m : Mutex} (h : Settled D s m)
    (hfiles : t.files = s.files) (hwhole : ∀ k ∈ D, s.Whole k → t.Whole k) :
    Settled D t m := by
  cases m with
  | db k => exact fun hk => hwhole k hk (h hk)
  | checkout k =>
    change (t.files (.checkout k)).isSome
    rw [hfiles]
    exact h

/-- The commands of caller `c` change; what the others run stays. -/
theorem Inv.setChild {c : ℕ} {child : Option (Child Content)} (h : Inv T H K D s)
    (hruns : ∀ ch, child = some ch → RunsWhere H K c ch.cmd ch.path ch.input.isSome)
    (halone : ∀ k ∈ D, (s.setChild c child).Bares k c → ∀ c', s.Bares k c' → c' = c)
    (hdb : ∀ k ∈ D, s.Bares k c → (s.setChild c child).Bares k c)
    (hwhole : ∀ k ∈ D, s.Whole k → (s.setChild c child).Whole k) :
    Inv T H K D (s.setChild c child) where
  child c' ch hch := by
    by_cases hc : c' = c
    · subst hc
      refine hruns ch ?_
      simpa [Cache.setChild] using hch
    · exact h.child c' ch (by simpa [Cache.setChild, Function.update_of_ne hc] using hch)
  alone k hk c₁ c₂ h₁ h₂ := by
    by_cases hc₁ : c₁ = c
    · by_cases hc₂ : c₂ = c
      · rw [hc₁, hc₂]
      · rw [Cache.bares_setChild_of_ne hc₂] at h₂
        exact absurd (halone k hk (hc₁ ▸ h₁) c₂ h₂) hc₂
    · rw [Cache.bares_setChild_of_ne hc₁] at h₁
      by_cases hc₂ : c₂ = c
      · exact absurd (halone k hk (hc₂ ▸ h₂) c₁ h₁) hc₁
      · rw [Cache.bares_setChild_of_ne hc₂] at h₂
        exact h.alone k hk c₁ c₂ h₁ h₂
  db k hk x hx := by
    refine (h.db k hk x hx).imp id (Or.imp ?_ id)
    rintro ⟨c', hc'⟩
    by_cases hc : c' = c
    · subst hc
      exact ⟨c', hdb k hk hc'⟩
    · exact ⟨c', (Cache.bares_setChild_of_ne hc).2 hc'⟩
  checkout := h.checkout
  toolchain := h.toolchain
  entry process m hh hr he := settled_of_same (h.entry process m hh hr he) rfl hwhole

/-- Nothing is in progress that was not, unless the new command is. -/
theorem whole_setChild {c : ℕ} {child : Option (Child Content)} {k : Key} (h : s.Whole k)
    (hnot : ¬ (s.setChild c child).Bares k c) : (s.setChild c child).Whole k := by
  refine ⟨h.there, h.notRemains, ?_⟩
  rintro ⟨c', hc'⟩
  by_cases hc : c' = c
  · exact hnot (hc ▸ hc')
  · exact h.notInProgress ⟨c', (Cache.bares_setChild_of_ne hc).1 hc'⟩

theorem setChild_children_of_ne {c c' : ℕ} {child : Option (Child Content)} (h : c' ≠ c) :
    (s.setChild c child).children c' = s.children c' := Function.update_of_ne h ..

theorem setChild_children_self {c : ℕ} {child : Option (Child Content)} :
    (s.setChild c child).children c = child := Function.update_self ..

/-! ## The operations -/

section

variable (T H K D) in
/-- What an operation must leave alone. -/
def Keeps (c : ℕ) (o : Op) (s t : Cache Content) : Prop :=
  Inv T H K D t ∧ ∀ c' f, (c' = c → Spares o f) → Holds T K D c' f s → Holds T K D c' f t

variable {c : ℕ} {t : Cache Content}

theorem Keeps.refl {o : Op} (h : Inv T H K D s) : Keeps T H K D c o s s :=
  ⟨h, fun _ _ _ hf => hf⟩

theorem keeps_own {o : Op} {p : CachePath} (h : Inv T H K D s) (ho : o.place = some p)
    (hp : p.caller = some c) (y : Option Content) : Keeps T H K D c o s (s.put p y) := by
  refine ⟨h.put_own hp y, fun c' f hspares hf => holds_put_own hp hf fun hc => ?_⟩
  refine ⟨?_, ?_⟩
  · rintro x rfl
    exact hspares hc ho
  · rintro cmd input before rfl
    exact absurd ho (hspares hc).1

theorem keeps_rename {p q : CachePath} {x : Content} (h : Inv T H K D s)
    (hl : Lawful T H K D c s (.rename p q)) (hx : s.files p = some x) :
    Keeps T H K D c (.rename p q) s ((s.put p none).put q (some x)) := by
  obtain ⟨hp, hgood⟩ := hl
  obtain ⟨hinv, hfacts⟩ := keeps_own (o := .rename p q) h rfl hp none
  have hq : q.caller = none := by
    specialize hgood x hx
    cases q <;> first | rfl | exact hgood.elim
  refine ⟨hinv.put_shared ?_ ?_ ?_, fun c' f hs hf => holds_put_shared hq (hfacts c' f hs hf)⟩
  · rintro k - rfl
    exact (hgood x hx).elim
  · rintro k rfl
    exact hgood x hx
  · rintro sha256 rfl
    exact hgood x hx

theorem keeps_wait {child : Child Content} {a : Bool} (h : Inv T H K D s)
    (hch : s.children c = some child) (ha : child.exit = some a) :
    Keeps T H K D c .wait s (s.setChild c none) := by
  have hnot : ∀ k, ¬ (s.setChild c none).Bares k c := by
    intro k hb
    obtain ⟨ch, hnone, -⟩ := Cache.bares_setChild_self.1 hb
    cases hnone
  have hwhole : ∀ k ∈ D, s.Whole k → (s.setChild c none).Whole k :=
    fun k _ hk => whole_setChild hk (hnot k)
  refine ⟨h.setChild (fun ch he => by cases he) (fun k _ hb => absurd hb (hnot k)) ?_ hwhole,
    fun c' f hs hf => ?_⟩
  · rintro k - ⟨ch, hch', hexit, -⟩
    rw [hch] at hch'
    cases hch'
    rw [ha] at hexit
    cases hexit
  · by_cases hc : c' = c
    · subst hc
      cases f with
      | rests => exact setChild_children_self
      | holds m e => exact hf
      | has p x =>
        refine ⟨hf.1, hf.2.1, fun ch he => ?_⟩
        rw [setChild_children_self] at he
        cases he
      | awaits cmd p input before => exact absurd (hs rfl).2 (by simp [Op.ps])
      | clones k => exact absurd (hs rfl) (by simp [Spares, Op.ps])
      | whole k => exact fun hk => hwhole k hk (hf hk)
      | placed p => exact hf
    · exact holds_of_same hf rfl (setChild_children_of_ne hc) hwhole fun m e he => by
        subst he; exact hf

theorem Tools.Cloned.ne_empty {url : Str} {x : Content} (h : T.Cloned url x) : x ≠ T.empty := by
  obtain ⟨before, y, hdone, hfetched⟩ := h
  induction hfetched with
  | refl => exact T.cloned hdone
  | tail _ hstep ih =>
    obtain ⟨cmd, hcmd, hwrite⟩ := hstep
    exact T.fetched hcmd ih hwrite

/-- A bare clone that is finished is not an empty directory. -/
theorem Inv.whole_ne_empty (h : Inv T H K D s) {k : Key} (hk : k ∈ D) (hw : s.Whole k) :
    ¬ (s.files (.db k) = none ∨ s.files (.db k) = some T.empty) := by
  rintro (he | he)
  · have := hw.there
    rw [he] at this
    cases this
  · rcases h.db k hk _ he with hr | hp | ⟨url, -, -, hcloned⟩
    · rw [hw.notRemains] at hr
      cases hr
    · exact hw.notInProgress hp
    · exact hcloned.ne_empty rfl

theorem keeps_spawn {cmd : Command} {p : CachePath} {input : Option CachePath}
    {exit : Option Bool} (h : Inv T H K D s) (hl : Lawful T H K D c s (.spawn cmd p input))
    (hcareful : Careful T D s (.spawn cmd p input))
    (hexit : exit = none ∧ (cmd.clones → s.files p = none ∨ s.files p = some T.empty) ∨
      exit = some false) :
    Keeps T H K D c (.spawn cmd p input) s
      (s.setChild c (some ⟨cmd, p, input.bind s.files, s.files p, exit⟩)) := by
  obtain ⟨hidle, hruns⟩ := hl
  generalize ht : s.setChild c (some ⟨cmd, p, input.bind s.files, s.files p, exit⟩) = t
  -- a bare clone that begins finds no directory, and no other clone of it
  have hbegins : ∀ k, t.Bares k c →
      (s.files (.db k) = none ∨ s.files (.db k) = some T.empty) ∧ (k ∈ D → ¬ s.InProgress k) := by
    intro k hb
    rw [← ht, Cache.bares_setChild_self] at hb
    obtain ⟨ch, he, hnone, hbare, hpath⟩ := hb
    cases he
    dsimp only at hnone hbare hpath
    subst hpath hnone
    obtain ⟨url, rfl⟩ : ∃ url, cmd = .cloneBare url := by
      cases cmd <;> first | exact ⟨_, rfl⟩ | cases hbare
    have hfiles := (hexit.resolve_right (by simp)).2 rfl
    exact ⟨hfiles, fun hk => hcareful hk hfiles⟩
  have hwhole : ∀ k ∈ D, s.Whole k → t.Whole k := by
    intro k hk hw
    subst ht
    exact whole_setChild hw fun hb => h.whole_ne_empty hk hw (hbegins k hb).1
  have hinv : Inv T H K D t := by
    subst ht
    refine h.setChild ?_ ?_ ?_ hwhole
    · intro ch he
      cases he
      refine hruns.imp id ?_
      rintro ⟨k, hp, hinput, hcmd⟩
      refine ⟨k, hp, ?_, hcmd⟩
      cases input with
      | none => rfl
      | some _ => cases hinput
    · exact fun k hk hb c' hc' => absurd ⟨c', hc'⟩ ((hbegins k hb).2 hk)
    · rintro k - ⟨ch, hch, -⟩
      rw [hidle] at hch
      cases hch
  refine ⟨hinv, fun c' f hs hf => ?_⟩
  subst ht
  by_cases hc : c' = c
  · subst hc
    cases f with
    | rests => exact absurd (hs rfl) (by simp [Spares, Op.ps])
    | holds m e => exact hf
    | has q x =>
      refine ⟨hf.1, hf.2.1, fun ch he _ => ?_⟩
      rw [setChild_children_self] at he
      cases he
      rintro rfl
      exact hs rfl rfl
    | awaits cmd p input before => exact absurd (hs rfl).2 (by simp [Op.ps])
    | clones k => exact absurd (hs rfl) (by simp [Spares, Op.ps])
    | whole k => exact fun hk => hwhole k hk (hf hk)
    | placed p => exact hf
  · exact holds_of_same hf rfl (setChild_children_of_ne hc) hwhole fun m e he => by
      subst he; exact hf

/-- Changes of what an entry says, by the caller that has locked it. -/
theorem keeps_entry {o : Op} {m : Mutex} (h : Inv T H K D s) (ho : o.mutex = some m)
    (hfiles : t.files = s.files) (hchildren : t.children = s.children)
    (hremains : t.remains = s.remains)
    (hother : ∀ process m', (process ≠ K.owner c ∨ m' ≠ m) →
      t.holder process m' = s.holder process m' ∧ t.entry process m' = s.entry process m')
    (hmine : s.holder (K.owner c) m = none ∨ s.holder (K.owner c) m = some c)
    (hsettled : t.holder (K.owner c) m = none → (t.entry (K.owner c) m).ready →
      (t.entry (K.owner c) m).err = .ok → Settled D s m) :
    Keeps T H K D c o s t := by
  have hbares : ∀ k c', t.Bares k c' ↔ s.Bares k c' := by
    intro k c'
    unfold Cache.Bares
    rw [hchildren]
  have hprogress : ∀ k, t.InProgress k ↔ s.InProgress k := by
    intro k
    unfold Cache.InProgress
    rw [hchildren]
  have hwhole : ∀ k ∈ D, s.Whole k → t.Whole k := by
    intro k _ hw
    refine ⟨?_, ?_, ?_⟩
    · rw [hfiles]; exact hw.there
    · rw [hremains]; exact hw.notRemains
    · rw [hprogress]; exact hw.notInProgress
  refine ⟨⟨?_, ?_, ?_, ?_, ?_, ?_⟩, ?_⟩
  · rw [hchildren]; exact h.child
  · intro k hk c₁ c₂ h₁ h₂
    exact h.alone k hk c₁ c₂ ((hbares k c₁).1 h₁) ((hbares k c₂).1 h₂)
  · intro k hk x hx
    rw [hprogress, hremains]
    exact h.db k hk x (by rwa [hfiles] at hx)
  · rw [hfiles]; exact h.checkout
  · rw [hfiles]; exact h.toolchain
  · intro process m' hh hr he
    refine settled_of_same ?_ hfiles hwhole
    by_cases hm : process = K.owner c ∧ m' = m
    · obtain ⟨rfl, rfl⟩ := hm
      exact hsettled hh hr he
    · obtain ⟨hh', he'⟩ := hother process m' (by tauto)
      exact h.entry process m' (hh' ▸ hh) (he' ▸ hr) (he' ▸ he)
  · intro c' f hs hf
    refine holds_of_same hf hfiles (by rw [hchildren]) hwhole ?_
    rintro m' e rfl
    have hne : K.owner c' ≠ K.owner c ∨ m' ≠ m := by
      by_contra hcon
      obtain ⟨hown, rfl⟩ : K.owner c' = K.owner c ∧ m' = m := by tauto
      have hhold := hf.1
      rw [hown] at hhold
      rcases hmine with hnone | hsome
      · rw [hnone] at hhold
        cases hhold
      · rw [hsome] at hhold
        exact hs (Option.some.inj hhold).symm ho
    obtain ⟨hh', he'⟩ := hother (K.owner c') m' hne
    exact ⟨hh'.trans hf.1, he'.trans hf.2⟩

/-- The locks on toolchains say nothing. -/
theorem keeps_lock {o : Op} (h : Inv T H K D s) (lock : Str → Option ℕ) :
    Keeps T H K D c o s { s with lock := lock } :=
  ⟨⟨h.child, h.alone, h.db, h.checkout, h.toolchain, fun process m hh hr he =>
      settled_of_same (h.entry process m hh hr he) rfl fun _ _ hw => ⟨hw.1, hw.2, hw.3⟩⟩,
    fun _ _ _ hf => holds_of_same hf rfl rfl (fun _ _ hw => ⟨hw.1, hw.2, hw.3⟩)
      fun _ _ he => by subst he; exact hf⟩

end

/-! ## The commands at work -/

section

variable (T H K D) in
/-- What the surroundings must leave alone. -/
def KeepsAll (s t : Cache Content) : Prop :=
  Inv T H K D t ∧ ∀ c f, Holds T K D c f s → Holds T K D c f t

variable {c : ℕ} {child : Child Content}

theorem KeepsAll.trans {t u : Cache Content} (h : KeepsAll T H K D s t)
    (h' : KeepsAll T H K D t u) : KeepsAll T H K D s u :=
  ⟨h'.1, fun c f hf => h'.2 c f (h.2 c f hf)⟩

/-- A command changes the place of its own caller that it runs in. -/
theorem keepsAll_put_own (h : Inv T H K D s) (hch : s.children c = some child)
    (hexit : child.exit = none) (hp : child.path.caller = some c) (y : Option Content) :
    KeepsAll T H K D s (s.put child.path y) := by
  refine ⟨h.put_own hp y, fun c' f hf => holds_put_own hp hf fun hc => ⟨?_, ?_⟩⟩
  · subst hc
    rintro x rfl
    exact hf.2.2 child hch hexit rfl
  · subst hc
    rintro cmd input before rfl
    obtain ⟨-, exit, hch', -⟩ := hf
    refine ⟨exit, hch', ?_⟩
    have he : child.exit = exit := by rw [Option.some.inj (hch.symm.trans hch')]
    rw [← he, hexit]
    simp

/-- A bare clone that fails takes away what only its own call had begun to make. -/
theorem keepsAll_put_none (h : Inv T H K D s) {k : Key} (hp : s.InProgress k) :
    KeepsAll T H K D s (s.put (.db k) none) := by
  have hwhole : ∀ k', s.Whole k' → (s.put (.db k) none).Whole k' := fun k' hw =>
    whole_put hw fun he => by cases he; exact absurd hp hw.notInProgress
  refine ⟨⟨h.child, h.alone, fun k' hk x hx => ?_, ?_, ?_, ?_⟩, fun c f hf => ?_⟩
  · by_cases hk' : k' = k
    · subst hk'
      rw [put_files_self] at hx
      cases hx
    · exact h.db k' hk x (by rwa [put_files_of_ne _ (by simpa using hk')] at hx)
  · exact fun k' x hx => h.checkout k' x (by rwa [put_files_of_ne _ (by simp)] at hx)
  · exact fun d x hx => h.toolchain d x (by rwa [put_files_of_ne _ (by simp)] at hx)
  · intro process m hh hr he
    have hs := h.entry process m hh hr he
    cases m with
    | db k' => exact fun hk => hwhole k' (hs hk)
    | checkout k' =>
      change ((s.put (.db k) none).files (.checkout k')).isSome
      rw [put_files_of_ne _ (by simp)]
      exact hs
  · cases f with
    | rests => exact hf
    | holds m e => exact hf
    | has p x =>
      exact ⟨hf.1, by rw [put_files_of_ne _ (ne_of_caller hf.1 rfl).symm]; exact hf.2.1, hf.2.2⟩
    | awaits cmd p input before =>
      obtain ⟨hc, exit, hch, hdone⟩ := hf
      refine ⟨hc, exit, hch, fun he => ?_⟩
      rw [put_files_of_ne _ (ne_of_caller hc rfl).symm]
      exact hdone he
    | clones k' =>
      obtain ⟨ch, hch, hb, hpath, hw⟩ := hf
      exact ⟨ch, hch, hb, hpath, fun he hk => hwhole k' (hw he hk)⟩
    | whole k' => exact fun hk => hwhole k' (hf hk)
    | placed p =>
      refine ⟨hf.1, ?_⟩
      have hne : p ≠ .db k := by
        rintro rfl
        exact absurd hf.1 (by simp [CachePath.final])
      rw [put_files_of_ne _ hne]
      exact hf.2

/-- The end of a command. -/
theorem keepsAll_end {a r : Bool} (h : Inv T H K D s) (hch : s.children c = some child)
    (hexit : child.exit = none)
    (hdone : a = true → r = false ∧
      ∃ x, s.files child.path = some x ∧ T.done child.cmd child.input child.before x)
    (hdb : ∀ k ∈ D, child.cmd.bare → child.path = .db k → ∀ x, s.files (.db k) = some x →
      r = true ∨ ∃ url, K.Asked url ∧ H.gitDbKey url = k ∧ T.Cloned url x) :
    KeepsAll T H K D s
      ((s.noteEnd child r).setChild c (some { child with exit := some a })) := by
  generalize ht : (s.noteEnd child r).setChild c (some { child with exit := some a }) = t
  have hfiles : t.files = s.files := by subst ht; exact Cache.noteEnd_files ..
  have hself : t.children c = some { child with exit := some a } := by
    subst ht; exact setChild_children_self
  have hother : ∀ c' ≠ c, t.children c' = s.children c' := by
    intro c' hc
    subst ht
    rw [setChild_children_of_ne hc, Cache.noteEnd_children]
  have hmine : ∀ k, ¬ t.Bares k c := by
    rintro k ⟨ch, hch', hnone, -⟩
    rw [hself] at hch'
    cases hch'
    cases hnone
  have hbares : ∀ k c', t.Bares k c' → s.Bares k c' := by
    intro k c' hb
    by_cases hc : c' = c
    · exact absurd (hc ▸ hb) (hmine k)
    · obtain ⟨ch, hch', hrest⟩ := hb
      exact ⟨ch, (hother c' hc) ▸ hch', hrest⟩
  -- the other clones go on, and what is said of their directories stays
  have hkept : ∀ k, ¬ s.Bares k c → t.remains k = s.remains k ∧
      (s.InProgress k → t.InProgress k) := by
    intro k hnot
    refine ⟨?_, ?_⟩
    · subst ht
      exact Cache.noteEnd_remains_of_ne fun hb hp => hnot ⟨child, hch, hexit, hb, hp⟩
    · rintro ⟨c', ch, hch', hrest⟩
      have hc : c' ≠ c := by
        rintro rfl
        exact hnot ⟨ch, hch', hrest⟩
      exact ⟨c', ch, (hother c' hc).trans hch', hrest⟩
  have hwhole : ∀ k ∈ D, s.Whole k → t.Whole k := by
    intro k _ hw
    have hnot : ¬ s.Bares k c := fun hb => hw.notInProgress ⟨c, hb⟩
    refine ⟨by rw [hfiles]; exact hw.there, by rw [(hkept k hnot).1]; exact hw.notRemains, ?_⟩
    rintro ⟨c', hb⟩
    exact hw.notInProgress ⟨c', hbares k c' hb⟩
  refine ⟨⟨?_, ?_, ?_, ?_, ?_, ?_⟩, fun c' f hf => ?_⟩
  · intro c' ch hch'
    by_cases hc : c' = c
    · subst hc
      rw [hself] at hch'
      cases hch'
      exact h.child c' child hch
    · exact h.child c' ch ((hother c' hc) ▸ hch')
  · exact fun k hk c₁ c₂ h₁ h₂ => h.alone k hk c₁ c₂ (hbares k c₁ h₁) (hbares k c₂ h₂)
  · intro k hk x hx
    rw [hfiles] at hx
    by_cases hb : s.Bares k c
    · obtain ⟨ch, hch', -, hbare, hpath⟩ := hb
      rw [hch] at hch'
      cases hch'
      have hr : t.remains k = r := by subst ht; exact Cache.noteEnd_remains_self hbare hpath
      rw [hr]
      exact (hdb k hk hbare hpath x hx).imp id .inr
    · obtain ⟨hr, hp⟩ := hkept k hb
      rw [hr]
      exact (h.db k hk x hx).imp id (Or.imp hp id)
  · rw [hfiles]; exact h.checkout
  · rw [hfiles]; exact h.toolchain
  · intro process m hh hr he
    have hholder : t.holder = s.holder := by subst ht; exact Cache.noteEnd_holder ..
    have hentry : t.entry = s.entry := by subst ht; exact Cache.noteEnd_entry ..
    rw [hholder] at hh
    rw [hentry] at hr he
    exact settled_of_same (h.entry process m hh hr he) hfiles hwhole
  · by_cases hc : c' = c
    · subst hc
      cases f with
      | rests =>
        rw [show s.children c' = none from hf] at hch
        cases hch
      | holds m e => subst ht; simpa [Cache.setChild, Holds] using hf
      | has p x =>
        refine ⟨hf.1, by rw [hfiles]; exact hf.2.1, fun ch hch' hnone => ?_⟩
        rw [hself] at hch'
        cases hch'
        cases hnone
      | awaits cmd p input before =>
        obtain ⟨hp, exit, hch', -⟩ := hf
        rw [hch] at hch'
        cases hch'
        refine ⟨hp, some a, hself, fun ha => ?_⟩
        rw [hfiles]
        exact (hdone (Option.some.inj ha)).2
      | clones k =>
        obtain ⟨ch, hch', hb, hpath, -⟩ := hf
        rw [hch] at hch'
        cases hch'
        refine ⟨_, hself, hb, hpath, fun ha hk => ?_⟩
        obtain ⟨hr, x, hx, -⟩ := hdone (Option.some.inj ha)
        refine ⟨?_, ?_, ?_⟩
        · rw [hfiles, ← hpath, hx]; rfl
        · subst ht; exact (Cache.noteEnd_remains_self hb hpath).trans hr
        · rintro ⟨c₁, h₁⟩
          have := h.alone k hk c₁ c' (hbares k c₁ h₁) ⟨child, hch, hexit, hb, hpath⟩
          exact hmine k (this ▸ h₁)
      | whole k => exact fun hk => hwhole k hk (hf hk)
      | placed p => exact ⟨hf.1, by rw [hfiles]; exact hf.2⟩
    · refine holds_of_same hf hfiles (hother c' hc) hwhole fun m e he => ?_
      subst he ht
      simpa [Cache.setChild, Holds] using hf

theorem keepsAll_works {t : Cache Content} (h : Inv T H K D s) (hw : Works T s t) :
    KeepsAll T H K D s t := by
  cases hw with
  | write c child y hch hexit hthere hwrite =>
    rcases h.child c child hch with hown | ⟨k, hp, hinput, hcmd⟩
    · exact keepsAll_put_own h hch hexit hown _
    · have hshared : child.path.caller = none := by rw [hp]; rfl
      refine ⟨h.put_shared ?_ ?_ ?_, fun c' f hf => holds_put_shared hshared hf⟩
      · intro k' hk hp'
        obtain rfl : k = k' := by rw [hp] at hp'; cases hp'; rfl
        rcases hcmd with hfetch | ⟨url, hbare, -⟩
        · -- a fetch adds to the clone that is there
          obtain ⟨x, hx⟩ := Option.isSome_iff_exists.1 (hthere hfetch)
          rw [hp] at hx
          rw [hp, hx] at hwrite
          rcases h.db k hk x hx with hr | hpr | ⟨url, hasked, hkey, before, z, hdone, hz⟩
          · exact .inl hr
          · exact .inr (.inl hpr)
          · refine .inr (.inr ⟨url, hasked, hkey, before, z, hdone, hz.tail ⟨child.cmd, hfetch, ?_⟩⟩)
            rwa [show child.input = none by simpa using hinput] at hwrite
        · exact .inr (.inl ⟨c, child, hch, hexit, by rw [hbare]; rfl, hp⟩)
      · intro k' hp'
        rw [hp] at hp'
        cases hp'
      · intro sha256 hp'
        rw [hp] at hp'
        cases hp'
  | exit c child x hch hexit hx hdone =>
    refine keepsAll_end h hch hexit (fun _ => ⟨rfl, x, hx, hdone⟩) fun k hk hbare hp y hy => .inr ?_
    rcases h.child c child hch with hown | ⟨k', hp', hinput, hcmd⟩
    · rw [hp] at hown
      cases hown
    · obtain rfl : k = k' := by rw [hp] at hp'; cases hp'; rfl
      rcases hcmd with hfetch | ⟨url, hcmd, hasked, hkey⟩
      · rw [Command.not_bare hfetch] at hbare
        cases hbare
      · obtain rfl : y = x := by rw [hp, hy] at hx; exact Option.some.inj hx
        rw [hcmd, show child.input = none by simpa using hinput] at hdone
        exact ⟨url, hasked, hkey, child.before, y, hdone, .refl⟩
  | fail c child left hch hexit hleft =>
    have hput : KeepsAll T H K D s (s.put child.path left) := by
      rcases hleft with rfl | ⟨hclones, rfl⟩
      · rw [show s.put child.path (s.files child.path) = s by
          unfold Cache.put; rw [Function.update_eq_self]]
        exact ⟨h, fun _ _ hf => hf⟩
      · rcases h.child c child hch with hown | ⟨k, hp, -, hcmd⟩
        · exact keepsAll_put_own h hch hexit hown _
        · rw [hp]
          refine keepsAll_put_none h ⟨c, child, hch, hexit, ?_, hp⟩
          rcases hcmd with hfetch | ⟨url, hcmd, -⟩
          · rw [Command.not_clones hfetch] at hclones
            cases hclones
          · rw [hcmd]; rfl
    refine hput.trans (keepsAll_end hput.1 hch hexit (by simp) fun k _ _ hp x hx => .inl ?_)
    rw [← hp, put_files_self] at hx
    rw [hx]
    rfl

theorem keepsAll_kill (h : Inv T H K D s) (lock : Str → Option ℕ) :
    KeepsAll T H K D s { s with lock := lock } :=
  ⟨(keeps_lock (c := 0) (o := .wait) h lock).1, fun _ _ hf =>
    holds_of_same hf rfl rfl (fun _ _ hw => ⟨hw.1, hw.2, hw.3⟩) fun _ _ he => by
      subst he; exact hf⟩

end

/-! ## The rules -/

theorem keeps_act {c : ℕ} {o : Op} {a : o.Ans} {t : Cache Content} (h : Inv T H K D s)
    (hl : Lawful T H K D c s o) (hcareful : Careful T D s o) (hact : act T K.owner c o s a t) :
    Keeps T H K D c o s t := by
  cases o with
  | isDir p | fsExists p | hasDir p dir =>
    obtain ⟨-, rfl⟩ := hact
    exact .refl h
  | createParent p | isRepoRoot p =>
    obtain rfl := hact
    exact .refl h
  | digest p | iterate p =>
    obtain ⟨-, rfl⟩ := hact
    exact .refl h
  | mkdir p =>
    rcases hact with ⟨-, -, rfl⟩ | ⟨-, rfl⟩
    · exact keeps_own h rfl hl _
    · exact .refl h
  | removeDir p =>
    obtain ⟨rest, rfl⟩ := hact
    exact keeps_own h rfl hl _
  | removeFile p =>
    obtain ⟨rest, -, rfl⟩ := hact
    exact keeps_own h rfl hl _
  | rename p q =>
    rcases hact with ⟨-, x, hx, -, rfl⟩ | ⟨-, rfl⟩
    · exact keeps_rename h hl hx
    · exact .refl h
  | spawn cmd p input =>
    obtain ⟨exit, hexit, rfl⟩ := hact
    exact keeps_spawn h hl hcareful hexit
  | wait =>
    obtain ⟨⟨child, hch, ha⟩, rfl⟩ := hact
    exact keeps_wait h hch ha
  | lock m =>
    obtain ⟨hnone, rfl⟩ := hact
    refine keeps_entry h rfl rfl rfl rfl (fun process m' hne => ⟨?_, rfl⟩) (.inl hnone) ?_
    · exact Cache.setHolder_of_ne _ hne
    · intro hn
      rw [Cache.setHolder_self] at hn
      cases hn
  | unlock m =>
    obtain ⟨-, rfl⟩ := hact
    exact keeps_entry h rfl rfl rfl rfl (fun process m' hne => ⟨Cache.setHolder_of_ne _ hne, rfl⟩)
      (.inr hl.1) fun _ => hl.2
  | load m =>
    obtain ⟨-, rfl⟩ := hact
    exact .refl h
  | store m e =>
    obtain rfl := hact
    refine keeps_entry h rfl rfl rfl rfl (fun process m' hne => ⟨rfl, ?_⟩) (.inr hl) ?_
    · exact Cache.setEntry_of_ne _ hne
    · intro hn
      have hl : s.holder (K.owner c) m = some c := hl
      rw [show s.holder (K.owner c) m = none from hn] at hl
      cases hl
  | acquire sha256 =>
    rcases hact with ⟨-, -, rfl⟩ | ⟨-, rfl⟩
    · exact keeps_lock h _
    · exact .refl h
  | release sha256 =>
    obtain rfl := hact
    split
    · exact keeps_lock h _
    · exact .refl h

variable (T H K D) in
/-- The rules of the calls. -/
def discipline : Discipline (careful T K.owner D) where
  Inv := Inv T H K D
  Fact := Fact Content
  Holds := Holds T K D
  Lawful c o s := Lawful T H K D c s o
  Spares := Spares
  act h hl hact := keeps_act h hl hact.1 hact.2
  env h hw := keepsAll_works h hw
  kill h hk := by
    obtain rfl := hk
    obtain ⟨hinv, hfacts⟩ := keepsAll_kill h _
    exact ⟨hinv, fun c f _ hf => hfacts c f hf⟩

theorem inv_start : Inv T H K D .start where
  child := by rintro c child ⟨⟩
  alone := by rintro k - c c' ⟨child, ⟨⟩, -⟩
  db := by rintro k - x ⟨⟩
  checkout := by rintro k x ⟨⟩
  toolchain := by rintro sha256 x ⟨⟩
  entry := by rintro process m - ⟨⟩

end

end Spn.Trees
