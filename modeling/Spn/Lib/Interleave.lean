import Mathlib

/-! # Interleaved callers

Any number of callers run programs over one shared state, an operation at a time, in any
order; between two operations the surroundings may change the state too, and a process may
be killed with all its callers. What a caller may count on are facts: no step of another
caller or of the surroundings takes a fact from it, as long as the operations are lawful.
-/
namespace Spn.Lib

/-- A program: operations one after another, each with an answer the rest depends on. -/
inductive Prog (Op : Type) (Ans : Op → Type) (α : Type) : Type
  | ret (a : α)
  | op (o : Op) (next : Ans o → Prog Op Ans α)

namespace Prog

variable {Op : Type} {Ans : Op → Type} {α β : Type}

def bind : Prog Op Ans α → (α → Prog Op Ans β) → Prog Op Ans β
  | .ret a, f => f a
  | .op o next, f => .op o fun a => (next a).bind f

instance : Monad (Prog Op Ans) where
  pure := .ret
  bind := Prog.bind

/-- One operation. -/
def perform (o : Op) : Prog Op Ans (Ans o) := .op o .ret

/-- All operations of the program pass the test. -/
def All (P : Op → Prop) : Prog Op Ans α → Prop
  | .ret _ => True
  | .op o next => P o ∧ ∀ a, All P (next a)

section

variable {P : Op → Prop}

@[simp] theorem all_pure (a : α) : All P (pure a : Prog Op Ans α) := trivial

theorem all_of_forall (h : ∀ o, P o) (p : Prog Op Ans α) : p.All P := by
  induction p with
  | ret a => trivial
  | op o next ih => exact ⟨h o, ih⟩

theorem All.bind {p : Prog Op Ans α} {f : α → Prog Op Ans β} (hp : p.All P)
    (hf : ∀ a, (f a).All P) : (p >>= f).All P := by
  induction p with
  | ret a => exact hf a
  | op o next ih => exact ⟨hp.1, fun a => ih a (hp.2 a)⟩

theorem All.perform_bind {o : Op} {f : Ans o → Prog Op Ans α} (h : P o)
    (hf : ∀ a, (f a).All P) : (Prog.perform o >>= f).All P := ⟨h, hf⟩

theorem All.perform {o : Op} (h : P o) : (Prog.perform o : Prog Op Ans (Ans o)).All P :=
  ⟨h, fun _ => trivial⟩

end

end Prog

/-- What an operation of a caller, the surroundings and the end of a process do to the
state, and the process of each caller. -/
structure System (S Op : Type) (Ans : Op → Type) where
  act : ℕ → (o : Op) → S → Ans o → S → Prop
  env : S → S → Prop
  kill : ℕ → S → S → Prop
  owner : ℕ → ℕ

/-- The state, and what each caller has left to do; a killed one does nothing any more. -/
structure Config (S Op : Type) (Ans : Op → Type) (α : Type) where
  shared : S
  progs : ℕ → Option (Prog Op Ans α)

section

variable {S Op : Type} {Ans : Op → Type} {α β : Type}

/-- A step of a caller, of the surroundings, or the end of a process. -/
inductive System.Step (sys : System S Op Ans) (cfg : Config S Op Ans α) :
    Config S Op Ans α → Prop
  | act (c : ℕ) (o : Op) (next : Ans o → Prog Op Ans α) (a : Ans o) (t : S) :
    cfg.progs c = some (.op o next) → sys.act c o cfg.shared a t →
    Step sys cfg ⟨t, Function.update cfg.progs c (some (next a))⟩
  | env (t : S) : sys.env cfg.shared t → Step sys cfg ⟨t, cfg.progs⟩
  | kill (p : ℕ) (t : S) : sys.kill p cfg.shared t →
    Step sys cfg ⟨t, fun c => if sys.owner c = p then none else cfg.progs c⟩

/-- A run. -/
def System.Reached (sys : System S Op Ans) : Config S Op Ans α → Config S Op Ans α → Prop :=
  Relation.ReflTransGen sys.Step

theorem System.Reached.act {sys : System S Op Ans} {start cfg : Config S Op Ans α}
    (h : sys.Reached start cfg) (c : ℕ) {o : Op} {next : Ans o → Prog Op Ans α} (a : Ans o)
    (t : S) (hp : cfg.progs c = some (.op o next)) (ha : sys.act c o cfg.shared a t) :
    sys.Reached start ⟨t, Function.update cfg.progs c (some (next a))⟩ :=
  h.tail (.act c o next a t hp ha)

theorem System.Reached.env {sys : System S Op Ans} {start cfg : Config S Op Ans α}
    (h : sys.Reached start cfg) (t : S) (he : sys.env cfg.shared t) :
    sys.Reached start ⟨t, cfg.progs⟩ :=
  h.tail (.env t he)

/-- The rules the callers keep: an invariant, the facts each of them may count on, which
operations are lawful, and the facts of its own an operation spares. -/
structure Discipline (sys : System S Op Ans) where
  Inv : S → Prop
  Fact : Type
  Holds : ℕ → Fact → S → Prop
  Lawful : ℕ → Op → S → Prop
  Spares : Op → Fact → Prop
  act : ∀ {c o s a t}, Inv s → Lawful c o s → sys.act c o s a t →
    Inv t ∧ ∀ c' f, (c' = c → Spares o f) → Holds c' f s → Holds c' f t
  env : ∀ {s t}, Inv s → sys.env s t → Inv t ∧ ∀ c f, Holds c f s → Holds c f t
  kill : ∀ {p s t}, Inv s → sys.kill p s t →
    Inv t ∧ ∀ c f, sys.owner c ≠ p → Holds c f s → Holds c f t

namespace Discipline

variable {sys : System S Op Ans} (D : Discipline sys) (c : ℕ)

/-- No fact of the caller is lost. -/
def Rely (s t : S) : Prop := ∀ f, D.Holds c f s → D.Holds c f t

/-- The operations the program has left are lawful, and what it returns is right, whatever
the others do. -/
def Safe (Q : α → S → Prop) : Prog Op Ans α → S → Prop
  | .ret a, s => ∀ t, D.Rely c s t → D.Inv t → Q a t
  | .op o next, s => ∀ t, D.Rely c s t → D.Inv t →
      D.Lawful c o t ∧ ∀ a u, sys.act c o t a u → Safe Q (next a) u

/-- The program takes no fact like this one from its own caller. -/
def SparedBy (f : D.Fact) (p : Prog Op Ans α) : Prop := p.All fun o => D.Spares o f

end Discipline

namespace Discipline

variable {sys : System S Op Ans} {D : Discipline sys} {c : ℕ}

theorem Rely.refl (s : S) : D.Rely c s s := fun _ h => h

theorem Rely.trans {s t u : S} (h : D.Rely c s t) (h' : D.Rely c t u) : D.Rely c s u :=
  fun f hf => h' f (h f hf)

variable {Q : α → S → Prop} {s : S}

theorem Safe.rely {p : Prog Op Ans α} {t : S} (h : D.Safe c Q p s) (hr : D.Rely c s t) :
    D.Safe c Q p t := by
  cases p with
  | ret a => exact fun u hu => h u (hr.trans hu)
  | op o next => exact fun u hu => h u (hr.trans hu)

/-- It is enough to begin wherever the others may have brought the state. -/
theorem Safe.begin {p : Prog Op Ans α} (h : ∀ t, D.Rely c s t → D.Inv t → D.Safe c Q p t) :
    D.Safe c Q p s := by
  cases p with
  | ret a => exact fun t ht hinv => h t ht hinv t (Rely.refl t) hinv
  | op o next => exact fun t ht hinv => h t ht hinv t (Rely.refl t) hinv

theorem Safe.ret {a : α} (h : ∀ t, D.Rely c s t → D.Inv t → Q a t) :
    D.Safe c Q (pure a : Prog Op Ans α) s := h

/-- An operation, and then the rest: what it spares is there afterwards. -/
theorem Safe.perform {o : Op} {f : Ans o → Prog Op Ans α}
    (h : ∀ t, D.Rely c s t → D.Inv t → D.Lawful c o t ∧ ∀ a u, sys.act c o t a u → D.Inv u →
      (∀ fact, D.Spares o fact → D.Holds c fact t → D.Holds c fact u) → D.Safe c Q (f a) u) :
    D.Safe c Q (Prog.perform o >>= f) s := by
  intro t ht hinv
  obtain ⟨hlawful, hnext⟩ := h t ht hinv
  refine ⟨hlawful, fun a u ha => ?_⟩
  obtain ⟨hinv', hkept⟩ := D.act hinv hlawful ha
  exact hnext a u ha hinv' fun fact hs => hkept c fact fun _ => hs

theorem Safe.mono {Q' : α → S → Prop} {p : Prog Op Ans α} (h : D.Safe c Q p s)
    (hQ : ∀ a t, D.Inv t → Q a t → Q' a t) : D.Safe c Q' p s := by
  induction p generalizing s with
  | ret a => exact fun t ht hinv => hQ a t hinv (h t ht hinv)
  | op o next ih =>
    intro t ht hinv
    exact ⟨(h t ht hinv).1, fun a u ha => ih a ((h t ht hinv).2 a u ha)⟩

/-- One program after another. -/
theorem Safe.bind {R : β → S → Prop} {p : Prog Op Ans α} {f : α → Prog Op Ans β}
    (hp : D.Safe c Q p s) (hf : ∀ a t, D.Inv t → Q a t → D.Safe c R (f a) t) :
    D.Safe c R (p >>= f) s := by
  induction p generalizing s with
  | ret a => exact Safe.begin fun t ht hinv => hf a t hinv (hp t ht hinv)
  | op o next ih =>
    intro t ht hinv
    exact ⟨(hp t ht hinv).1, fun a u ha => ih a ((hp t ht hinv).2 a u ha)⟩

/-- A fact the program spares is there when it returns. -/
theorem Safe.frame {p : Prog Op Ans α} {f : D.Fact} (h : D.Safe c Q p s)
    (hspared : D.SparedBy f p) (hf : D.Holds c f s) :
    D.Safe c (fun a t => Q a t ∧ D.Holds c f t) p s := by
  induction p generalizing s with
  | ret a => exact fun t ht hinv => ⟨h t ht hinv, ht f hf⟩
  | op o next ih =>
    intro t ht hinv
    obtain ⟨hlawful, hnext⟩ := h t ht hinv
    refine ⟨hlawful, fun a u ha => ih a (hnext a u ha) (hspared.2 a) ?_⟩
    exact (D.act hinv hlawful ha).2 c f (fun _ => hspared.1) (ht f hf)

/-- A step keeps the invariant, and every caller's program safe. -/
theorem safe_step {Q : ℕ → α → S → Prop} {cfg cfg' : Config S Op Ans α}
    (hstep : sys.Step cfg cfg') (hinv : D.Inv cfg.shared)
    (hsafe : ∀ c p, cfg.progs c = some p → D.Safe c (Q c) p cfg.shared) :
    D.Inv cfg'.shared ∧ ∀ c p, cfg'.progs c = some p → D.Safe c (Q c) p cfg'.shared := by
  cases hstep with
  | act c o next a t hprog hact =>
    obtain ⟨hlawful, hnext⟩ := hsafe c _ hprog _ (Rely.refl _) hinv
    obtain ⟨hinv', hkept⟩ := D.act hinv hlawful hact
    refine ⟨hinv', fun c' p hp => ?_⟩
    dsimp only at hp
    by_cases hc : c' = c
    · subst hc
      rw [Function.update_self] at hp
      cases hp
      exact hnext a t hact
    · rw [Function.update_of_ne hc] at hp
      exact (hsafe c' p hp).rely fun f => hkept c' f fun h => absurd h hc
  | env t henv =>
    obtain ⟨hinv', hkept⟩ := D.env hinv henv
    exact ⟨hinv', fun c p hp => (hsafe c p hp).rely (hkept c)⟩
  | kill q t hkill =>
    obtain ⟨hinv', hkept⟩ := D.kill hinv hkill
    refine ⟨hinv', fun c p hp => ?_⟩
    dsimp only at hp
    split at hp
    · cases hp
    · rename_i hne
      exact (hsafe c p hp).rely fun f => hkept c f hne

theorem safe_run {Q : ℕ → α → S → Prop} {start cfg : Config S Op Ans α}
    (hrun : sys.Reached start cfg) (hinv : D.Inv start.shared)
    (hsafe : ∀ c p, start.progs c = some p → D.Safe c (Q c) p start.shared) :
    D.Inv cfg.shared ∧ ∀ c p, cfg.progs c = some p → D.Safe c (Q c) p cfg.shared := by
  induction hrun with
  | refl => exact ⟨hinv, hsafe⟩
  | tail _ hstep ih => exact safe_step hstep ih.1 ih.2

/-- What a caller has returned is right, from then on. -/
theorem returned {Q : ℕ → α → S → Prop} {start cfg : Config S Op Ans α} {a : α}
    (hrun : sys.Reached start cfg) (hinv : D.Inv start.shared)
    (hsafe : ∀ c p, start.progs c = some p → D.Safe c (Q c) p start.shared)
    (hret : cfg.progs c = some (.ret a)) : Q c a cfg.shared := by
  obtain ⟨hinv', hsafe'⟩ := safe_run hrun hinv hsafe
  exact hsafe' c _ hret _ (Rely.refl _) hinv'

end Discipline

end

end Spn.Lib
