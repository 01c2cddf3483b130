import Spn.Trees.Calls

/-! # What the callers keep

The steps of a run that is careful with the bare clones of a set, and what no step takes
from a caller: the entries it has locked, what is in its own places, and what is finished. A
bare clone is finished when no clone of it runs and none was cut short.
-/
namespace Spn.Trees

open Spn.Lib

section

variable {Content : Type}

/-! ## Careful steps -/

/-- What goes wrong with the bare clone of a directory: a call finds the directory while it
is being cloned, or with the remains of a clone that was cut short; or a clone of it is
begun while another runs that has not made anything yet. -/
def Careful (T : Tools Content) (D : Set Key) (s : Cache Content) : Op → Prop
  | .isDir (.db k) =>
    k ∈ D → (s.files (.db k)).isSome → ¬ s.InProgress k ∧ s.remains k = false
  | .spawn (.cloneBare _) (.db k) _ =>
    k ∈ D → s.files (.db k) = none ∨ s.files (.db k) = some T.empty → ¬ s.InProgress k
  | _ => True

/-- The runs all of whose steps are careful with the bare clones of the set. -/
def careful (T : Tools Content) (owner : ℕ → ℕ) (D : Set Key) :
    System (Cache Content) Op Op.Ans :=
  { system T owner with act := fun c o s a t => Careful T D s o ∧ act T owner c o s a t }

theorem reached_of_careful {T : Tools Content} {owner : ℕ → ℕ} {D : Set Key} {α : Type}
    {start cfg : Config (Cache Content) Op Op.Ans α}
    (h : (careful T owner D).Reached start cfg) : (system T owner).Reached start cfg := by
  refine Relation.ReflTransGen.mono ?_ _ _ h
  intro a b hstep
  cases hstep with
  | act c o next x t hp ha => exact .act c o next x t hp ha.2
  | env t he => exact .env t he
  | kill p t hk => exact .kill p t hk

theorem Command.not_clones {cmd : Command} (h : cmd.inDb) : cmd.clones = false := by
  cases cmd <;> first | rfl | cases h

theorem Command.not_bare {cmd : Command} (h : cmd.inDb) : cmd.bare = false := by
  cases cmd <;> first | rfl | cases h

/-! ## Changes of the state -/

namespace Cache

variable (s : Cache Content)

/-- The bare clone of a caller into the directory is running. -/
def Bares (k : Key) (c : ℕ) : Prop :=
  ∃ child, s.children c = some child ∧ child.exit = none ∧ child.cmd.bare ∧ child.path = .db k

/-- There is a bare clone, and it is finished. -/
structure Whole (k : Key) : Prop where
  there : (s.files (.db k)).isSome
  notRemains : s.remains k = false
  notInProgress : ¬ s.InProgress k

variable {s}

theorem bares_setChild_of_ne {k : Key} {c c' : ℕ} {child : Option (Child Content)}
    (h : c' ≠ c) : (s.setChild c child).Bares k c' ↔ s.Bares k c' := by
  unfold Bares setChild
  simp only [Function.update_of_ne h]

theorem bares_setChild_self {k : Key} {c : ℕ} {child : Option (Child Content)} :
    (s.setChild c child).Bares k c ↔ ∃ ch, child = some ch ∧ ch.exit = none ∧ ch.cmd.bare ∧
      ch.path = .db k := by
  unfold Bares setChild
  simp only [Function.update_self]

@[simp] theorem setHolder_self (process : ℕ) (m : Mutex) (h : Option ℕ) :
    (s.setHolder process m h).holder process m = h := by
  simp [setHolder]

theorem setHolder_of_ne {process process' : ℕ} {m m' : Mutex} (h : Option ℕ)
    (hne : process' ≠ process ∨ m' ≠ m) :
    (s.setHolder process m h).holder process' m' = s.holder process' m' := by
  by_cases hp : process' = process
  · subst hp
    simp [setHolder, Function.update_of_ne (hne.resolve_left (by simp))]
  · simp [setHolder, Function.update_of_ne hp]

@[simp] theorem setEntry_self (process : ℕ) (m : Mutex) (e : Entry) :
    (s.setEntry process m e).entry process m = e := by
  simp [setEntry]

theorem setEntry_of_ne {process process' : ℕ} {m m' : Mutex} (e : Entry)
    (hne : process' ≠ process ∨ m' ≠ m) :
    (s.setEntry process m e).entry process' m' = s.entry process' m' := by
  by_cases hp : process' = process
  · subst hp
    simp [setEntry, Function.update_of_ne (hne.resolve_left (by simp))]
  · simp [setEntry, Function.update_of_ne hp]

@[simp] theorem noteEnd_files (child : Child Content) (r : Bool) :
    (s.noteEnd child r).files = s.files := by
  unfold noteEnd; split <;> rfl

@[simp] theorem noteEnd_children (child : Child Content) (r : Bool) :
    (s.noteEnd child r).children = s.children := by
  unfold noteEnd; split <;> rfl

@[simp] theorem noteEnd_holder (child : Child Content) (r : Bool) :
    (s.noteEnd child r).holder = s.holder := by
  unfold noteEnd; split <;> rfl

@[simp] theorem noteEnd_entry (child : Child Content) (r : Bool) :
    (s.noteEnd child r).entry = s.entry := by
  unfold noteEnd; split <;> rfl

theorem noteEnd_remains_self {child : Child Content} {r : Bool} {k : Key}
    (hb : child.cmd.bare) (hp : child.path = .db k) : (s.noteEnd child r).remains k = r := by
  unfold noteEnd
  rw [hb, hp]
  exact Function.update_self ..

theorem noteEnd_remains_of_ne {child : Child Content} {r : Bool} {k : Key}
    (h : child.cmd.bare → child.path ≠ .db k) :
    (s.noteEnd child r).remains k = s.remains k := by
  unfold noteEnd
  split
  · rename_i k' hb hp
    exact Function.update_of_ne (fun he => h hb (by rw [hp, he])) _ _
  · rfl

end Cache

/-! ## The invariant -/

/-- A call has asked for the bare clone, or for a checkout. -/
def Callers.Asked (K : Callers) (url : Str) : Prop := ∃ c, (K.want c).url = some url

def Callers.AskedCheckout (K : Callers) (id : CheckoutId) : Prop :=
  ∃ c, (K.want c).id = some id

variable (T : Tools Content) (H : Hashes) (K : Callers) (D : Set Key)

/-- Where a command may run: in a place of its own caller, or in a bare clone. -/
def RunsWhere (c : ℕ) (cmd : Command) (p : CachePath) (reads : Bool) : Prop :=
  p.caller = some c ∨ ∃ k, p = .db k ∧ reads = false ∧
    (cmd.inDb ∨ ∃ url, cmd = .cloneBare url ∧ K.Asked url ∧ H.gitDbKey url = k)

/-- What may be put in place. -/
def Finished (q : CachePath) (x : Content) : Prop :=
  match q with
  | .checkout k => ∃ id, K.AskedCheckout id ∧ H.gitCheckoutKey id = k ∧ T.CheckedOut H id x
  | .toolchain sha256 => T.Extracted sha256 x
  | _ => False

/-- What an entry without an error says. -/
def Settled (s : Cache Content) : Mutex → Prop
  | .db k => k ∈ D → s.Whole k
  | .checkout k => (s.files (.checkout k)).isSome

structure Inv (s : Cache Content) : Prop where
  child : ∀ c child, s.children c = some child →
    RunsWhere H K c child.cmd child.path child.input.isSome
  alone : ∀ k ∈ D, ∀ c c', s.Bares k c → s.Bares k c' → c = c'
  db : ∀ k ∈ D, ∀ x, s.files (.db k) = some x → s.remains k = true ∨ s.InProgress k ∨
    ∃ url, K.Asked url ∧ H.gitDbKey url = k ∧ T.Cloned url x
  checkout : ∀ k x, s.files (.checkout k) = some x →
    ∃ id, K.AskedCheckout id ∧ H.gitCheckoutKey id = k ∧ T.CheckedOut H id x
  toolchain : ∀ sha256 x, s.files (.toolchain sha256) = some x → T.Extracted sha256 x
  entry : ∀ process m, s.holder process m = none → (s.entry process m).ready →
    (s.entry process m).err = .ok → Settled D s m

/-! ## Facts -/

/-- What a caller may count on. -/
inductive Fact (Content : Type)
  | rests
  | holds (m : Mutex) (e : Entry)
  | has (p : CachePath) (x : Content)
  | awaits (cmd : Command) (p : CachePath) (input before : Option Content)
  | clones (k : Key)
  | whole (k : Key)
  | placed (p : CachePath)

/-- It runs nothing; it has locked an entry; a place of its own has this content, and no
command of its own writes there; a command works in a place of its own; a bare clone of its
own is running; a bare clone is finished; a checkout or a toolchain is there. -/
def Holds (c : ℕ) : Fact Content → Cache Content → Prop
  | .rests, s => s.children c = none
  | .holds m e, s => s.holder (K.owner c) m = some c ∧ s.entry (K.owner c) m = e
  | .has p x, s => p.caller = some c ∧ s.files p = some x ∧
      ∀ child, s.children c = some child → child.exit = none → child.path ≠ p
  | .awaits cmd p input before, s => p.caller = some c ∧ ∃ exit,
      s.children c = some ⟨cmd, p, input, before, exit⟩ ∧
      (exit = some true → ∃ x, s.files p = some x ∧ T.done cmd input before x)
  | .clones k, s => ∃ child, s.children c = some child ∧ child.cmd.bare ∧ child.path = .db k ∧
      (child.exit = some true → k ∈ D → s.Whole k)
  | .whole k, s => k ∈ D → s.Whole k
  | .placed p, s => p.final ∧ (s.files p).isSome

/-- The place an operation changes. -/
def Op.place : Op → Option CachePath
  | .mkdir p | .removeDir p | .removeFile p | .rename p _ | .spawn _ p _ => some p
  | _ => none

/-- The entry an operation changes. -/
def Op.mutex : Op → Option Mutex
  | .lock m | .unlock m | .store m _ => some m
  | _ => none

/-- The operation begins or ends a command. -/
def Op.ps : Op → Bool
  | .spawn _ _ _ | .wait => true
  | _ => false

/-- A fact of its own caller the operation leaves alone. -/
def Spares (o : Op) : Fact Content → Prop
  | .rests => o.ps = false
  | .holds m _ => o.mutex ≠ some m
  | .has p _ => o.place ≠ some p
  | .awaits _ p _ _ => o.place ≠ some p ∧ o.ps = false
  | .clones _ => o.ps = false
  | .whole _ | .placed _ => True

/-- What the callers do not do: change a place of another, put anything but a finished
checkout or toolchain in place, change an entry they have not locked or unlock one that
says what is not so, and run a command where it does not belong. -/
def Lawful (c : ℕ) (s : Cache Content) : Op → Prop
  | .mkdir p | .removeDir p | .removeFile p => p.caller = some c
  | .rename p q => p.caller = some c ∧ ∀ x, s.files p = some x → Finished T H K q x
  | .spawn cmd p input => s.children c = none ∧ RunsWhere H K c cmd p input.isSome
  | .unlock m => s.holder (K.owner c) m = some c ∧ ((s.entry (K.owner c) m).ready →
      (s.entry (K.owner c) m).err = .ok → Settled D s m)
  | .store m _ => s.holder (K.owner c) m = some c
  | _ => True

end

end Spn.Trees
