import Spn.Trees.Discipline

/-! # What the calls do

What a call may count on when a function of it has returned.
-/
namespace Spn.Trees

open Spn.Lib

section

variable {Content : Type} {T : Tools Content} {H : Hashes} {K : Callers} {D : Set Key}
variable {s : Cache Content} {c : ℕ} {α : Type}

variable (T H K D c) in
/-- The program keeps the rules and returns with this. -/
abbrev Does (Q : α → Cache Content → Prop) (p : Call α) (s : Cache Content) : Prop :=
  (discipline T H K D).Safe c Q p s

variable (T K D c) in
/-- It runs nothing. -/
abbrev Rests (s : Cache Content) : Prop := Holds T K D c .rests s

variable (T H K D c) in
/-- The others, at work between two operations. -/
abbrev Rely (s t : Cache Content) : Prop := (discipline T H K D).Rely c s t

theorem rely {t : Cache Content} {f : Fact Content} (h : Rely T H K D c s t)
    (hf : Holds T K D c f s) : Holds T K D c f t := h f hf

/-- The facts a step of its own leaves it. -/
theorem does_perform {o : Op} {f : o.Ans → Call α} {Q : α → Cache Content → Prop}
    (h : ∀ t, Rely T H K D c s t → Inv T H K D t → Lawful T H K D c t o ∧
      ∀ a u, Careful T D t o → act T K.owner c o t a u → Inv T H K D u →
        (∀ fact, Spares o fact → Holds T K D c fact t → Holds T K D c fact u) →
        Does T H K D c Q (f a) u) :
    Does T H K D c Q (does o >>= f) s := by
  refine Discipline.Safe.perform fun t ht hinv => ?_
  obtain ⟨hlawful, hnext⟩ := h t ht hinv
  exact ⟨hlawful, fun a u ha hinv' hx => hnext a u ha.1 ha.2 hinv' hx⟩

theorem does_last {o : Op} {Q : o.Ans → Cache Content → Prop}
    (h : ∀ t, Rely T H K D c s t → Inv T H K D t → Lawful T H K D c t o ∧
      ∀ a u, Careful T D t o → act T K.owner c o t a u → Inv T H K D u →
        (∀ fact, Spares o fact → Holds T K D c fact t → Holds T K D c fact u) →
        ∀ v, Rely T H K D c u v → Inv T H K D v → Q a v) :
    Does T H K D c Q (does o) s := by
  have h' : Does T H K D c Q (does o >>= pure) s := does_perform fun t ht hinv =>
    ⟨(h t ht hinv).1, fun a u hc ha hinv' hx => (h t ht hinv).2 a u hc ha hinv' hx⟩
  exact h'

theorem does_frame {f : Fact Content} {p : Call α} {Q : α → Cache Content → Prop}
    (h : Does T H K D c Q p s) (hspared : (discipline T H K D).SparedBy f p)
    (hf : Holds T K D c f s) :
    Does T H K D c (fun a t => Q a t ∧ Holds T K D c f t) p s := h.frame hspared hf

/-! ## Commands -/

/-- A command in a place of its own caller: what it exits with 0 with is there. -/
theorem psRun_own {cmd : Command} {p : CachePath} {input : Option CachePath}
    {P : Option Content → Option Content → Prop} (hrests : Rests T K D c s)
    (hp : p.caller = some c)
    (hP : ∀ t, Rely T H K D c s t → P (input.bind t.files) (t.files p)) :
    Does T H K D c (fun ok t => Rests T K D c t ∧ (ok = true → ∃ read before x,
      P read before ∧ T.done cmd read before x ∧ Holds T K D c (.has p x) t))
      (psRun cmd p input) s := by
  refine does_perform fun t ht _ => ⟨⟨rely ht hrests, .inl hp⟩, ?_⟩
  rintro - u - ⟨exit, hexit, rfl⟩ - -
  have hawaits : Holds T K D c (.awaits cmd p (input.bind t.files) (t.files p))
      (t.setChild c (some ⟨cmd, p, input.bind t.files, t.files p, exit⟩)) := by
    refine ⟨hp, exit, setChild_children_self, ?_⟩
    rintro rfl
    simp at hexit
  refine does_last fun v hv _ => ⟨trivial, ?_⟩
  rintro ok w - ⟨⟨child, hch, hok⟩, rfl⟩ - - x hx -
  have hrests' : Rests T K D c (v.setChild c none) := setChild_children_self
  refine ⟨rely hx hrests', ?_⟩
  rintro rfl
  obtain ⟨-, exit', hch', hdone⟩ := rely hv hawaits
  rw [hch] at hch'
  cases hch'
  obtain ⟨y, hy, hd⟩ := hdone hok
  have hhas : Holds T K D c (.has p y) (v.setChild c none) := by
    refine ⟨hp, hy, fun ch he => ?_⟩
    rw [setChild_children_self] at he
    cases he
  exact ⟨_, _, y, hP t ht, hd, rely hx hhas⟩

/-- A command in a bare clone, or a bare clone. -/
theorem psRun_db {cmd : Command} {k : Key} (hrests : Rests T K D c s)
    (hcmd : cmd.inDb ∨ ∃ url, cmd = .cloneBare url ∧ K.Asked url ∧ H.gitDbKey url = k) :
    Does T H K D c (fun ok t => Rests T K D c t ∧ (cmd.bare → ok = true →
      Holds T K D c (.whole k) t)) (psRun cmd (.db k) none) s := by
  refine does_perform fun t ht _ => ⟨⟨rely ht hrests, .inr ⟨k, rfl, rfl, hcmd⟩⟩, ?_⟩
  rintro - u - ⟨exit, hexit, rfl⟩ - -
  have hclones : cmd.bare → Holds T K D c (.clones k)
      (t.setChild c (some ⟨cmd, .db k, none, t.files (.db k), exit⟩)) := by
    refine fun hb => ⟨_, setChild_children_self, hb, rfl, ?_⟩
    rintro rfl
    simp at hexit
  refine does_last fun v hv _ => ⟨trivial, ?_⟩
  rintro ok w - ⟨⟨child, hch, hok⟩, rfl⟩ - hspared x hx -
  have hrests' : Rests T K D c (v.setChild c none) := setChild_children_self
  refine ⟨rely hx hrests', ?_⟩
  rintro hb rfl
  obtain ⟨ch, hch', -, -, hw⟩ := rely hv (hclones hb)
  rw [hch] at hch'
  cases hch'
  exact rely hx (hspared (.whole k) trivial (hw hok))

/-- A command leaves alone what is not where it runs. -/
theorem psRun_spares {cmd : Command} {p : CachePath} {input : Option CachePath}
    {f : Fact Content} (hf : (∃ m e, f = .holds m e) ∨ ∃ q x, f = .has q x ∧ p ≠ q) :
    (discipline T H K D).SparedBy f (psRun cmd p input) := by
  refine Prog.All.bind (Prog.All.perform ?_) fun _ => Prog.All.perform ?_
  · rcases hf with ⟨m, e, rfl⟩ | ⟨q, x, rfl, hne⟩
    · simp [discipline, Spares, Op.mutex]
    · simpa [discipline, Spares, Op.place] using hne
  · rcases hf with ⟨m, e, rfl⟩ | ⟨q, x, rfl, -⟩ <;> simp [discipline, Spares, Op.mutex, Op.place]

/-! ## Entries -/

/-- What an entry without an error stands for. -/
def Mutex.fact : Mutex → Fact Content
  | .db k => .whole k
  | .checkout k => .placed (.checkout k)

theorem settled_iff {m : Mutex} : Settled D s m ↔ Holds T K D c m.fact s := by
  cases m with
  | db k => exact Iff.rfl
  | checkout k => exact ⟨fun h => ⟨rfl, h⟩, fun h => h.2⟩

variable (T K D c) in
/-- The entry is locked by the caller, and says what is so where the test holds. -/
def Guards (P : Entry → Prop) (m : Mutex) (s : Cache Content) : Prop :=
  ∃ e, Holds T K D c (.holds m e) s ∧ (P e → Holds T K D c m.fact s)

theorem Guards.rely {P : Entry → Prop} {m : Mutex} {t : Cache Content}
    (h : Guards T K D c P m s) (hr : Rely T H K D c s t) : Guards T K D c P m t := by
  obtain ⟨e, he, hP⟩ := h
  exact ⟨e, Trees.rely hr he, fun hp => Trees.rely hr (hP hp)⟩

/-- Ready and without an error. -/
def Entry.fine (e : Entry) : Prop := e.ready ∧ e.err = .ok

theorem does_lock {m : Mutex} {f : Unit → Call α} {Q : α → Cache Content → Prop}
    (hrests : Rests T K D c s)
    (h : ∀ t, Rests T K D c t → Guards T K D c Entry.fine m t → Does T H K D c Q (f ()) t) :
    Does T H K D c Q (does (.lock m) >>= f) s := by
  refine does_perform fun t ht hinv => ⟨trivial, ?_⟩
  rintro - u - ⟨hnone, rfl⟩ - hspared
  refine h _ (hspared .rests rfl (rely ht hrests)) ⟨t.entry (K.owner c) m, ⟨?_, rfl⟩, ?_⟩
  · exact Cache.setHolder_self ..
  · rintro ⟨hready, herr⟩
    have hfact : Holds T K D c m.fact t :=
      settled_iff.1 (hinv.entry (K.owner c) m hnone hready herr)
    refine hspared _ ?_ hfact
    cases m <;> trivial

theorem does_unlock {P : Entry → Prop} {m : Mutex} {f : Entry → Call α}
    {Q : α → Cache Content → Prop} (hP : ∀ e : Entry, e.fine → P e) (hrests : Rests T K D c s)
    (hg : Guards T K D c P m s)
    (h : ∀ e t, Rests T K D c t → (P e → Holds T K D c m.fact t) → Does T H K D c Q (f e) t) :
    Does T H K D c Q (does (.unlock m) >>= f) s := by
  refine does_perform fun t ht hinv => ?_
  obtain ⟨e, ⟨hheld, hentry⟩, hfair⟩ := hg.rely ht
  refine ⟨⟨hheld, fun hready herr => settled_iff.2 (hfair (hP e ?_))⟩, ?_⟩
  · rw [hentry] at hready herr
    exact ⟨hready, herr⟩
  · rintro a u - ⟨rfl, rfl⟩ - hspared
    refine h _ _ (hspared .rests rfl (rely ht hrests)) fun hp => hspared _ ?_ (hfair (hentry ▸ hp))
    cases m <;> trivial

theorem does_load {P : Entry → Prop} {m : Mutex} {f : Entry → Call α}
    {Q : α → Cache Content → Prop} (hrests : Rests T K D c s) (hg : Guards T K D c P m s)
    (h : ∀ e t, Rests T K D c t → Holds T K D c (.holds m e) t →
      (P e → Holds T K D c m.fact t) → Does T H K D c Q (f e) t) :
    Does T H K D c Q (does (.load m) >>= f) s := by
  refine does_perform fun t ht hinv => ⟨trivial, ?_⟩
  rintro a u - ⟨rfl, rfl⟩ - -
  obtain ⟨e, hheld, hfair⟩ := hg.rely ht
  have he : u.entry (K.owner c) m = e := hheld.2
  rw [he]
  exact h e u (rely ht hrests) hheld hfair

theorem does_store {m : Mutex} {e e' : Entry} {f : Unit → Call α}
    {Q : α → Cache Content → Prop} (hrests : Rests T K D c s)
    (hheld : Holds T K D c (.holds m e) s)
    (h : ∀ t, Rests T K D c t → Holds T K D c (.holds m e') t → Does T H K D c Q (f ()) t) :
    Does T H K D c Q (does (.store m e') >>= f) s := by
  refine does_perform fun t ht hinv => ⟨(rely ht hheld).1, ?_⟩
  rintro - u - rfl - hspared
  exact h _ (hspared .rests rfl (rely ht hrests)) ⟨(rely ht hheld).1, Cache.setEntry_self ..⟩

/-- A program that leaves the entry alone. -/
theorem Guards.frame {P : Entry → Prop} {m : Mutex} {p : Call α} {Q : α → Cache Content → Prop}
    (hg : Guards T K D c P m s) (h : Does T H K D c Q p s)
    (hspared : ∀ e, (discipline T H K D).SparedBy (.holds m e) p) :
    Does T H K D c (fun a t => Q a t ∧ Guards T K D c P m t) p s := by
  obtain ⟨e, hheld, hfair⟩ := hg
  have hheldAfter := h.frame (hspared e) hheld
  by_cases hP : P e
  · have hfact : (discipline T H K D).SparedBy m.fact p :=
      Prog.all_of_forall (fun o => by cases m <;> trivial) p
    exact (hheldAfter.frame hfact (hfair hP)).mono fun _ _ _ hq =>
      ⟨hq.1.1, e, hq.1.2, fun _ => hq.2⟩
  · exact hheldAfter.mono fun _ _ _ hq => ⟨hq.1, e, hq.2, fun hp => absurd hp hP⟩

/-- A call for an entry: the first one fills it, and it says what is so. -/
theorem does_entry {m : Mutex} {first : Call Unit} (hrests : Rests T K D c s)
    (hfirst : ∀ t e, Rests T K D c t → Holds T K D c (.holds m e) t →
      Does T H K D c (fun _ u => Rests T K D c u ∧ Guards T K D c (·.err = .ok) m u) first t) :
    Does T H K D c (fun err t => Rests T K D c t ∧ (err = .ok → Holds T K D c m.fact t))
      (do
        does (.lock m)
        let entry ← does (.load m)
        if entry.ready then pure () else first
        let entry ← does (.unlock m)
        pure entry.err) s := by
  refine does_lock hrests fun t hrests hg => does_load hrests hg fun e t hrests hheld hfair => ?_
  have hlast : ∀ u, Rests T K D c u → Guards T K D c (·.err = .ok) m u →
      Does T H K D c (fun err t => Rests T K D c t ∧ (err = .ok → Holds T K D c m.fact t))
        (do let entry ← does (.unlock m); pure entry.err) u := by
    intro u hrests hg
    refine does_unlock (fun e he => he.2) hrests hg fun e v hrests hfair => ?_
    exact Discipline.Safe.ret fun w hw _ => ⟨rely hw hrests, fun he => rely hw (hfair he)⟩
  by_cases hready : e.ready
  · simp only [hready, if_true]
    exact hlast t hrests ⟨e, hheld, fun he => hfair ⟨hready, he⟩⟩
  · simp only [hready]
    exact Discipline.Safe.bind (hfirst t e hrests hheld) fun _ u _ hu => hlast u hu.1 hu.2

/-! ## Bare clones -/

theorem cloneDb_does {url : Str} {e : Entry} (hasked : K.Asked url) (hrests : Rests T K D c s)
    (hheld : Holds T K D c (.holds (.db (H.gitDbKey url)) e) s) :
    Does T H K D c (fun _ t => Rests T K D c t ∧
      Guards T K D c (·.err = .ok) (.db (H.gitDbKey url)) t) (cloneDb H url) s := by
  refine does_store hrests hheld fun t hrests hheld => ?_
  refine does_perform fun u hu hinv => ⟨trivial, ?_⟩
  rintro there v hcareful ⟨hthere, rfl⟩ - -
  have hrests := rely hu hrests
  have hheld := rely hu hheld
  by_cases ht : there = true
  · subst ht
    simp only [if_true]
    -- a directory that is there is a finished clone, since the step was careful
    have hwhole : Holds T K D c (.whole (H.gitDbKey url)) v := fun hk =>
      have h := hcareful hk hthere.symm
      ⟨hthere.symm, h.2, h.1⟩
    exact Discipline.Safe.ret fun w hw _ =>
      ⟨rely hw hrests, _, rely hw hheld, fun _ => rely hw hwhole⟩
  · simp only [ht]
    refine Discipline.Safe.bind (does_frame (psRun_db hrests (.inr ⟨url, rfl, hasked, rfl⟩))
      (psRun_spares (.inl ⟨_, _, rfl⟩)) hheld) fun ok w _ hw => ?_
    obtain ⟨⟨hrests, hwhole⟩, hheld⟩ := hw
    by_cases hok : ok = true
    · simp only [hok, if_true]
      exact Discipline.Safe.ret fun x hx _ =>
        ⟨rely hx hrests, _, rely hx hheld, fun _ => rely hx (hwhole rfl hok)⟩
    · simp only [hok]
      refine does_last fun x hx _ => ⟨(rely hx hheld).1, ?_⟩
      rintro - y - rfl - hspared z hz -
      refine ⟨rely hz (hspared .rests rfl (rely hx hrests)), ⟨true, .error⟩, rely hz ?_, by simp⟩
      exact ⟨(rely hx hheld).1, Cache.setEntry_self ..⟩

/-- `spn_git_cache_ensure_db` returns without an error only where the clone is finished. -/
theorem gitCacheEnsureDb_does {url : Str} (hasked : K.Asked url) (hrests : Rests T K D c s) :
    Does T H K D c (fun err t => Rests T K D c t ∧
      (err = .ok → Holds T K D c (.whole (H.gitDbKey url)) t)) (gitCacheEnsureDb H url) s :=
  does_entry hrests fun _ _ hrests hheld => cloneDb_does hasked hrests hheld

theorem findRev_does {k : Key} {rev : Str} (hrests : Rests T K D c s) :
    Does T H K D c (fun _ t => Rests T K D c t) (findRev k rev) s := by
  have hrun : ∀ {cmd : Command} {t : Cache Content}, cmd.inDb → Rests T K D c t →
      Does T H K D c (fun _ u => Rests T K D c u) (psRun cmd (.db k) none) t :=
    fun hcmd hrests => (psRun_db hrests (.inl hcmd)).mono fun _ _ _ h => h.1
  have hret : ∀ {a : Bool} {t : Cache Content}, Rests T K D c t →
      Does T H K D c (fun _ u => Rests T K D c u) (pure a : Call Bool) t :=
    fun hrests => Discipline.Safe.ret fun _ hw _ => rely hw hrests
  refine (hrun rfl hrests).bind fun found t _ hrests => ?_
  split
  · exact hret hrests
  · refine (hrun rfl hrests).bind fun fetched t _ hrests => ?_
    split
    · exact hrun rfl hrests
    · refine (hrun rfl hrests).bind fun mirrored t _ hrests => ?_
      split
      · exact hrun rfl hrests
      · exact hret hrests

theorem findRev_spares {k : Key} {rev : Str} {m : Mutex} {e : Entry} :
    (discipline T H K D).SparedBy (.holds m e) (findRev k rev) := by
  have hrun : ∀ {cmd : Command},
      (discipline T H K D).SparedBy (.holds m e) (psRun cmd (.db k) none) :=
    psRun_spares (.inl ⟨m, e, rfl⟩)
  refine Prog.All.bind hrun fun found => ?_
  split
  · exact Prog.all_pure _
  · refine Prog.All.bind hrun fun fetched => ?_
    split
    · exact hrun
    · refine Prog.All.bind hrun fun mirrored => ?_
      split
      · exact hrun
      · exact Prog.all_pure _

theorem gitDbEnsureRev_does {k : Key} {rev : Str} (hrests : Rests T K D c s) :
    Does T H K D c (fun _ t => Rests T K D c t) (gitDbEnsureRev k rev) s := by
  refine does_lock hrests fun t hrests hg => ?_
  refine (hg.frame (findRev_does hrests) fun _ => findRev_spares).bind fun found u _ hu => ?_
  refine does_unlock (fun _ he => he) hu.1 hu.2 fun e v hrests _ => ?_
  exact Discipline.Safe.ret fun w hw _ => rely hw hrests

end

end Spn.Trees
