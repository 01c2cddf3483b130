import Mathlib

/-! # Hashes of graphs

A node is hashed from what it has of its own and from the hashes of the nodes its
edges lead to, in any order. Two nodes, of one graph or of two, then have one hash
exactly when they are bisimilar: what they have of their own is equal, and so are
their edges, up to the order and to bisimilar targets.
-/
namespace Spn.Lib.Merkle

variable {A B O L : Type}

/-- A graph whose nodes have a content and labelled edges. -/
structure Graph (A O L : Type) where
  own : A → O
  edges : A → List (L × A)

/-- The records of the edges of a node, given the hashes of the targets. -/
def Graph.records (g : Graph A O L) (a : A) (hash : A → ℕ) : List (L × ℕ) :=
  (g.edges a).map fun e => (e.1, hash e.2)

/-- `h` is the hash of the node. -/
inductive Graph.Hashes (g : Graph A O L) (digest : O → List (L × ℕ) → ℕ) : A → ℕ → Prop
  | mk (a : A) (hash : A → ℕ) : (∀ e ∈ g.edges a, Graph.Hashes g digest e.2 (hash e.2)) →
      Graph.Hashes g digest a (digest (g.own a) (g.records a hash))

/-- The edges agree in labels and in targets, in some order. -/
def Matched (R : A → B → Prop) (l : List (L × A)) (l' : List (L × B)) : Prop :=
  ∃ m, m.Perm l' ∧ List.Forall₂ (fun e e' => e.1 = e'.1 ∧ R e.2 e'.2) l m

/-- What relates nodes with the same content and matching edges. -/
structure Bisim (g : Graph A O L) (g' : Graph B O L) (R : A → B → Prop) : Prop where
  own : ∀ a b, R a b → g.own a = g'.own b
  edges : ∀ a b, R a b → Matched R (g.edges a) (g'.edges b)

/-- The nodes are bisimilar. -/
def Alike (g : Graph A O L) (g' : Graph B O L) (a : A) (b : B) : Prop :=
  ∃ R, Bisim g g' R ∧ R a b

section

variable {g : Graph A O L} {g' : Graph B O L} {digest : O → List (L × ℕ) → ℕ}

theorem Graph.Hashes.unique {a : A} {h h' : ℕ} (ha : g.Hashes digest a h)
    (ha' : g.Hashes digest a h') : h = h' := by
  induction ha generalizing h' with
  | mk a hash hedges ih =>
    cases ha' with
    | mk _ hash' hedges' =>
      have heq : g.records a hash = g.records a hash' :=
        List.map_congr_left fun e he => by rw [ih e he (hedges' e he)]
      rw [heq]

/-- The hashes of the targets may come as a list along the edges. -/
theorem Graph.Hashes.of_list {a : A} {hashes : List ℕ}
    (h : List.Forall₂ (fun e h => g.Hashes digest e.2 h) (g.edges a) hashes) :
    g.Hashes digest a
      (digest (g.own a) (List.zipWith (fun e h => (e.1, h)) (g.edges a) hashes)) := by
  classical
  let hash : A → ℕ := fun x => if hx : ∃ h, g.Hashes digest x h then hx.choose else 0
  have hspec : ∀ {x : A} {h : ℕ}, g.Hashes digest x h → hash x = h := by
    intro x h hx
    have hex : ∃ h, g.Hashes digest x h := ⟨h, hx⟩
    have hdef : hash x = hex.choose := dif_pos hex
    rw [hdef]
    exact hex.choose_spec.unique hx
  have hrec : ∀ (edges : List (L × A)) (hashes : List ℕ),
      List.Forall₂ (fun e h => g.Hashes digest e.2 h) edges hashes →
      List.zipWith (fun e h => (e.1, h)) edges hashes = edges.map (fun e => (e.1, hash e.2)) ∧
      ∀ e ∈ edges, g.Hashes digest e.2 (hash e.2) := by
    intro edges hashes h
    induction h with
    | nil => simp
    | cons he _ ih =>
      refine ⟨?_, ?_⟩
      · rw [List.zipWith_cons_cons, List.map_cons, hspec he, ih.1]
      · intro e hmem
        rcases List.mem_cons.1 hmem with rfl | hmem
        · rw [hspec he]
          exact he
        · exact ih.2 e hmem
  obtain ⟨hzip, hall⟩ := hrec _ _ h
  rw [hzip]
  exact .mk a hash hall

/-- When no two texts that are hashed have one digest, nodes with one hash are
bisimilar. -/
theorem alike_of_hashes
    (hcf : ∀ a b hash hash', (∀ e ∈ g.edges a, g.Hashes digest e.2 (hash e.2)) →
      (∀ e ∈ g'.edges b, g'.Hashes digest e.2 (hash' e.2)) →
      digest (g.own a) (g.records a hash) = digest (g'.own b) (g'.records b hash') →
      g.own a = g'.own b ∧ (g.records a hash).Perm (g'.records b hash'))
    {a : A} {b : B} {h : ℕ} (ha : g.Hashes digest a h) (hb : g'.Hashes digest b h) :
    Alike g g' a b := by
  refine ⟨fun a b => ∃ h, g.Hashes digest a h ∧ g'.Hashes digest b h, ⟨?_, ?_⟩, h, ha, hb⟩
  · rintro a b ⟨h, ha, hb⟩
    cases ha with
    | mk _ hash hedges =>
      generalize hd : digest (g.own a) (g.records a hash) = h at hb
      cases hb with
      | mk _ hash' hedges' => exact (hcf a b hash hash' hedges hedges' hd).1
  · rintro a b ⟨h, ha, hb⟩
    cases ha with
    | mk _ hash hedges =>
      generalize hd : digest (g.own a) (g.records a hash) = h at hb
      cases hb with
      | mk _ hash' hedges' =>
        have hperm := (hcf a b hash hash' hedges hedges' hd).2
        have hsnd : List.Forall₂ (fun r e => e ∈ g'.edges b ∧ r = (e.1, hash' e.2))
            (g'.records b hash') (g'.edges b) := by
          rw [Graph.records, List.forall₂_map_left_iff]
          exact List.forall₂_same.2 fun e he => ⟨he, rfl⟩
        obtain ⟨m, hm, hmp⟩ := List.perm_comp_forall₂ hperm hsnd
        refine ⟨m, hmp, ?_⟩
        rw [Graph.records, List.forall₂_map_left_iff] at hm
        refine ((List.forall₂_and_left (p := fun e => e ∈ g.edges a) _ _).2
          ⟨fun _ he => he, hm⟩).imp ?_
        rintro e e' ⟨he, he', heq⟩
        obtain ⟨hlabel, hhash⟩ := Prod.mk.inj heq
        exact ⟨hlabel, hash e.2, hedges e he, hhash ▸ hedges' e' he'⟩

/-- When a digest does not depend on the order of the records, bisimilar nodes have
one hash. -/
theorem hash_eq_of_alike (hperm : ∀ own records records', List.Perm records records' →
    digest own records = digest own records') {a : A} {b : B} {h h' : ℕ}
    (hab : Alike g g' a b) (ha : g.Hashes digest a h) (hb : g'.Hashes digest b h') : h = h' := by
  obtain ⟨R, hR, hab⟩ := hab
  induction ha generalizing b h' with
  | mk a hash hedges ih =>
    cases hb with
    | mk _ hash' hedges' =>
      obtain ⟨m, hm, hpairs⟩ := hR.edges a b hab
      have hrec : ∀ (l : List (L × A)) (m : List (L × B)), (∀ e ∈ l, e ∈ g.edges a) →
          (∀ e ∈ m, e ∈ g'.edges b) →
          List.Forall₂ (fun e e' => e.1 = e'.1 ∧ R e.2 e'.2) l m →
          l.map (fun e => (e.1, hash e.2)) = m.map (fun e => (e.1, hash' e.2)) := by
        intro l m hl hm hpairs
        induction hpairs with
        | nil => rfl
        | @cons e e' l m hpair _ ihl =>
          have he := hl e List.mem_cons_self
          have he' := hm e' List.mem_cons_self
          have hhash := ih e he (hedges' e' he') hpair.2
          rw [List.map_cons, List.map_cons, hpair.1, hhash,
            ihl (fun x hx => hl x (List.mem_cons_of_mem _ hx))
              (fun x hx => hm x (List.mem_cons_of_mem _ hx))]
      have hrecords := hrec _ _ (fun _ he => he) (fun e he => hm.mem_iff.1 he) hpairs
      rw [hR.own a b hab]
      refine hperm _ _ _ ?_
      show List.Perm ((g.edges a).map fun e => (e.1, hash e.2)) _
      rw [hrecords]
      exact hm.map _

end

end Spn.Lib.Merkle
