import Spn.Lib.Table

/-! # Depth-first walks

Two walks over a graph that is given by the successors of its nodes. `visit`
colours nodes and stops at an edge back to an open one; `eval` computes a value
for every node from the values of its successors and keeps it. A node that is
not there ends a walk at once. Both carry their depth; a depth over the number
of nodes is never used up.
-/
namespace Spn.Lib.DepthFirst

open Spn.Lib

variable {K V : Type} [Ord K] [Std.TransOrd K]

inductive Mark
  | opened | done
  deriving DecidableEq, Repr

/-- How a walk ends. -/
inductive Walk (K : Type) [Ord K]
  | ok (marks : Table K Mark)
  | cycle (at_ : K)
  | deep

/-- One walk after the other, up to the first that is not `ok`. -/
def visitEach (go : Table K Mark → K → Walk K) : List K → Table K Mark → Walk K
  | [], marks => .ok marks
  | k :: rest, marks =>
    match go marks k with
    | .ok marks => visitEach go rest marks
    | failed => failed

/-- The walk from one node. -/
def visit (succ : K → Option (List K)) : ℕ → Table K Mark → K → Walk K
  | 0, _, _ => .deep
  | depth + 1, marks, k =>
    match marks[k]?, succ k with
    | some .done, _ => .ok marks
    | _, none => .ok marks
    | some .opened, some _ => .cycle k
    | none, some next =>
      match visitEach (visit succ depth) next (marks.insert k .opened) with
      | .ok marks => .ok (marks.insert k .done)
      | failed => failed

/-- One evaluation after the other, with the values in order. -/
def evalEach (go : Table K (Option V) → K → Option (V × Table K (Option V))) :
    List K → Table K (Option V) → Option (List V × Table K (Option V))
  | [], memo => some ([], memo)
  | k :: rest, memo =>
    match go memo k with
    | none => none
    | some (v, memo) =>
      match evalEach go rest memo with
      | none => none
      | some (vs, memo) => some (v :: vs, memo)

/-- The value of one node; an open node gives `leaf`. -/
def eval (succ : K → List K) (leaf : K → V) (value : K → List V → V) :
    ℕ → Table K (Option V) → K → Option (V × Table K (Option V))
  | 0, _, _ => none
  | depth + 1, memo, k =>
    match memo[k]? with
    | some (some v) => some (v, memo)
    | some none => some (leaf k, memo)
    | none =>
      match evalEach (eval succ leaf value depth) (succ k) (memo.insert k none) with
      | none => none
      | some (vs, memo) => some (value k vs, memo.insert k (some (value k vs)))

/-! ## What the colouring walk finds -/

/-- An edge of the graph. -/
def Edge (succ : K → Option (List K)) (a b : K) : Prop := ∃ next, succ a = some next ∧ b ∈ next

section

variable {succ : K → Option (List K)}

theorem visit_of_none {k : K} (h : succ k = none) (depth : ℕ) (marks : Table K Mark) :
    visit succ (depth + 1) marks k = .ok marks := by
  unfold visit
  rw [h]
  cases marks[k]? with
  | none => rfl
  | some mark => cases mark <;> rfl

theorem visit_of_done {k : K} {marks : Table K Mark} (h : marks[k]? = some .done) (depth : ℕ) :
    visit succ (depth + 1) marks k = .ok marks := by
  unfold visit
  rw [h]

theorem visit_of_opened {k : K} {next : List K} (hs : succ k = some next) {marks : Table K Mark}
    (h : marks[k]? = some .opened) (depth : ℕ) :
    visit succ (depth + 1) marks k = .cycle k := by
  unfold visit
  rw [h, hs]

theorem visit_of_fresh {k : K} {next : List K} (hs : succ k = some next) {marks : Table K Mark}
    (h : marks[k]? = none) (depth : ℕ) :
    visit succ (depth + 1) marks k =
      match visitEach (visit succ depth) next (marks.insert k .opened) with
      | .ok marks => .ok (marks.insert k .done)
      | failed => failed := by
  conv_lhs => unfold visit
  rw [h, hs]

omit [Ord K] [Std.TransOrd K] in
/-- Nothing is below a node that is not there. -/
theorem acc_of_none {k : K} (h : succ k = none) : Acc (fun b a => Edge succ a b) k := by
  refine ⟨k, fun b hb => ?_⟩
  obtain ⟨next, hnext, -⟩ := hb
  rw [h] at hnext
  cases hnext

omit [Ord K] [Std.TransOrd K] in
/-- A node every way down from which ends is on no cycle. -/
theorem not_transGen_of_acc {r : K → K → Prop} {k : K} (h : Acc (fun b a => r a b) k) :
    ¬Relation.TransGen r k k := by
  intro hcycle
  have hswap : Relation.TransGen (fun b a => r a b) k k := Relation.transGen_swap.1 hcycle
  have hirrefl : ∀ a, Acc (Relation.TransGen fun b a => r a b) a →
      ¬Relation.TransGen (fun b a => r a b) a a := by
    intro a ha
    induction ha with
    | intro a _ ih => exact fun haa => ih a haa haa
  exact hirrefl k h.transGen hswap

/-- The second colouring has everything the first one has, and what it opened it
has closed; below what is done there is no cycle. -/
structure Closes (succ : K → Option (List K)) (marks marks' : Table K Mark) : Prop where
  keeps : ∀ (a : K) (m : Mark), marks[a]? = some m → marks'[a]? = some m
  opened : ∀ a : K, marks'[a]? = some .opened → marks[a]? = some .opened
  acc : ∀ a : K, marks'[a]? = some .done → Acc (fun b a => Edge succ a b) a

/-- What `visit` promises of the nodes it is called on. -/
def Closing (succ : K → Option (List K)) (go : Table K Mark → K → Walk K) : Prop :=
  ∀ (marks : Table K Mark) (k : K) (marks' : Table K Mark),
    (∀ a : K, marks[a]? = some .done → Acc (fun b a => Edge succ a b) a) →
    go marks k = .ok marks' → Closes succ marks marks' ∧ Acc (fun b a => Edge succ a b) k

theorem visitEach_closes {go : Table K Mark → K → Walk K} (hgo : Closing succ go) {ks : List K} :
    ∀ {marks marks' : Table K Mark},
      (∀ a : K, marks[a]? = some .done → Acc (fun b a => Edge succ a b) a) →
      visitEach go ks marks = .ok marks' →
        Closes succ marks marks' ∧ ∀ k ∈ ks, Acc (fun b a => Edge succ a b) k := by
  induction ks with
  | nil =>
    intro marks marks' hacc h
    cases h
    exact ⟨⟨fun _ _ h => h, fun _ h => h, hacc⟩, by simp⟩
  | cons k rest ih =>
    intro marks marks' hacc h
    unfold visitEach at h
    cases hstep : go marks k with
    | cycle at_ => rw [hstep] at h; cases h
    | deep => rw [hstep] at h; cases h
    | ok marks₁ =>
      rw [hstep] at h
      obtain ⟨hclose, hk⟩ := hgo marks k marks₁ hacc hstep
      obtain ⟨hrest, hall⟩ := ih hclose.acc h
      refine ⟨⟨fun a m hm => hrest.keeps a m (hclose.keeps a m hm),
        fun a ha => hclose.opened a (hrest.opened a ha), hrest.acc⟩, ?_⟩
      intro b hb
      rcases List.mem_cons.1 hb with rfl | hb
      · exact hk
      · exact hall b hb

variable [Std.LawfulEqOrd K]

/-- A walk that ends well leaves no cycle below its node. -/
theorem visit_closes (succ : K → Option (List K)) (depth : ℕ) : Closing succ (visit succ depth) := by
  induction depth with
  | zero =>
    intro marks k marks' _ h
    cases h
  | succ depth ih =>
    intro marks k marks' hacc h
    cases hsucc : succ k with
    | none =>
      rw [visit_of_none hsucc] at h
      cases h
      exact ⟨⟨fun _ _ h => h, fun _ h => h, hacc⟩, acc_of_none hsucc⟩
    | some next =>
      cases hmark : marks[k]? with
      | some mark =>
        cases mark with
        | opened =>
          rw [visit_of_opened hsucc hmark] at h
          cases h
        | done =>
          rw [visit_of_done hmark] at h
          cases h
          exact ⟨⟨fun _ _ h => h, fun _ h => h, hacc⟩, hacc k hmark⟩
      | none =>
        rw [visit_of_fresh hsucc hmark] at h
        cases heach : visitEach (visit succ depth) next (marks.insert k .opened) with
        | cycle at_ => rw [heach] at h; cases h
        | deep => rw [heach] at h; cases h
        | ok marks₁ =>
          rw [heach] at h
          cases h
          have hacc₁ : ∀ a : K, (marks.insert k .opened)[a]? = some Mark.done →
              Acc (fun b a => Edge succ a b) a := by
            intro a ha
            rcases (Table.getElem?_insert_eq_some _).1 ha with ⟨-, hm⟩ | ⟨-, ha⟩
            · cases hm
            · exact hacc a ha
          obtain ⟨hclose, hbelow⟩ := visitEach_closes ih hacc₁ heach
          -- all successors are closed, so the node is
          have hk : Acc (fun b a => Edge succ a b) k := by
            refine ⟨k, fun b hb => ?_⟩
            obtain ⟨next', hnext', hb⟩ := hb
            rw [hsucc] at hnext'
            cases hnext'
            exact hbelow b hb
          refine ⟨⟨?_, ?_, ?_⟩, hk⟩
          · intro a m hm
            have hne : a ≠ k := by rintro rfl; rw [hmark] at hm; cases hm
            rw [Table.getElem?_insert_of_ne _ hne]
            refine hclose.keeps a m ?_
            rw [Table.getElem?_insert_of_ne _ hne]
            exact hm
          · intro a ha
            rcases (Table.getElem?_insert_eq_some _).1 ha with ⟨-, hm⟩ | ⟨hne, ha⟩
            · cases hm
            · have := hclose.opened a ha
              rwa [Table.getElem?_insert_of_ne _ hne] at this
          · intro a ha
            rcases (Table.getElem?_insert_eq_some _).1 ha with ⟨rfl, -⟩ | ⟨-, ha⟩
            · exact hk
            · exact hclose.acc a ha

omit [Std.TransOrd K] [Std.LawfulEqOrd K] in
theorem visitEach_cycle {P : K → Prop} {go : Table K Mark → K → Walk K}
    (hgo : ∀ marks k a, go marks k = .cycle a → P a) {ks : List K} {marks : Table K Mark} {a : K}
    (h : visitEach go ks marks = .cycle a) : P a := by
  induction ks generalizing marks with
  | nil => cases h
  | cons k rest ih =>
    unfold visitEach at h
    cases hstep : go marks k with
    | ok marks₁ =>
      rw [hstep] at h
      exact ih h
    | cycle b =>
      rw [hstep] at h
      cases h
      exact hgo marks k _ hstep
    | deep =>
      rw [hstep] at h
      cases h

omit [Std.LawfulEqOrd K] in
/-- The node a walk stops at is there. -/
theorem succ_ne_none_of_cycle (succ : K → Option (List K)) (depth : ℕ) :
    ∀ (marks : Table K Mark) (k a : K), visit succ depth marks k = .cycle a → succ a ≠ none := by
  induction depth with
  | zero =>
    intro marks k a h
    cases h
  | succ depth ih =>
    intro marks k a h
    cases hs : succ k with
    | none =>
      rw [visit_of_none hs] at h
      cases h
    | some next =>
      cases hm : marks[k]? with
      | none =>
        rw [visit_of_fresh hs hm] at h
        cases heach : visitEach (visit succ depth) next (marks.insert k .opened) with
        | ok marks₁ =>
          rw [heach] at h
          cases h
        | cycle b =>
          rw [heach] at h
          cases h
          exact visitEach_cycle ih heach
        | deep =>
          rw [heach] at h
          cases h
      | some mark =>
        cases mark with
        | done =>
          rw [visit_of_done hm] at h
          cases h
        | opened =>
          rw [visit_of_opened hs hm] at h
          cases h
          rw [hs]
          exact Option.some_ne_none next

/-- The nodes of `U` a table knows nothing of. -/
def unknown {W : Type} (U : Finset K) (t : Table K W) : ℕ := (U.filter fun a => t[a]? = none).card

omit [Std.LawfulEqOrd K] in
theorem unknown_le {W : Type} {U : Finset K} {t t' : Table K W}
    (h : ∀ (a : K) (w : W), t[a]? = some w → t'[a]? ≠ none) : unknown U t' ≤ unknown U t := by
  refine Finset.card_le_card ?_
  intro a ha
  rw [Finset.mem_filter] at ha ⊢
  refine ⟨ha.1, ?_⟩
  cases hta : t[a]? with
  | none => rfl
  | some w => exact absurd ha.2 (h a w hta)

theorem unknown_insert_lt {W : Type} {U : Finset K} {t : Table K W} {k : K} (hk : k ∈ U)
    (hfree : t[k]? = none) (w : W) : unknown U (t.insert k w) < unknown U t := by
  refine Finset.card_lt_card (Finset.ssubset_iff_of_subset ?_ |>.2 ⟨k, ?_, ?_⟩)
  · intro a ha
    rw [Finset.mem_filter] at ha ⊢
    refine ⟨ha.1, ?_⟩
    by_cases hak : a = k
    · subst hak
      exact hfree
    · rw [← Table.getElem?_insert_of_ne t hak w]
      exact ha.2
  · rw [Finset.mem_filter]
    exact ⟨hk, hfree⟩
  · rw [Finset.mem_filter, Table.getElem?_insert_self]
    rintro ⟨-, h⟩
    cases h

theorem visitEach_ne_deep {U : Finset K} {depth : ℕ}
    (hgo : ∀ {marks : Table K Mark} {k : K},
      (∀ a : K, marks[a]? = some .done → Acc (fun b a => Edge succ a b) a) →
      k ∈ U → unknown U marks < depth → visit succ depth marks k ≠ .deep)
    {ks : List K} {marks : Table K Mark}
    (hacc : ∀ a : K, marks[a]? = some .done → Acc (fun b a => Edge succ a b) a)
    (hks : ∀ k ∈ ks, k ∈ U) (hdepth : unknown U marks < depth) :
    visitEach (visit succ depth) ks marks ≠ .deep := by
  induction ks generalizing marks with
  | nil => exact fun h => by cases h
  | cons k rest ih =>
    intro h
    unfold visitEach at h
    cases hstep : visit succ depth marks k with
    | ok marks₁ =>
      rw [hstep] at h
      have hclose := (visit_closes succ depth marks k marks₁ hacc hstep).1
      refine ih hclose.acc (fun j hj => hks j (List.mem_cons_of_mem _ hj))
        (lt_of_le_of_lt (unknown_le fun a w ha => ?_) hdepth) h
      rw [hclose.keeps a w ha]
      exact Option.some_ne_none w
    | deep => exact hgo hacc (hks k List.mem_cons_self) hdepth hstep
    | cycle b =>
      rw [hstep] at h
      cases h

/-- A depth over the number of unknown nodes is not used up. -/
theorem visit_ne_deep {U : Finset K} (hU : ∀ a b, Edge succ a b → b ∈ U) (depth : ℕ) :
    ∀ {marks : Table K Mark} {k : K},
      (∀ a : K, marks[a]? = some .done → Acc (fun b a => Edge succ a b) a) →
      k ∈ U → unknown U marks < depth → visit succ depth marks k ≠ .deep := by
  induction depth with
  | zero =>
    intro marks k _ _ hdepth
    exact absurd hdepth (Nat.not_lt_zero _)
  | succ depth ih =>
    intro marks k hacc hk hdepth h
    cases hsucc : succ k with
    | none =>
      rw [visit_of_none hsucc] at h
      cases h
    | some next =>
      cases hmark : marks[k]? with
      | some mark =>
        cases mark with
        | opened =>
          rw [visit_of_opened hsucc hmark] at h
          cases h
        | done =>
          rw [visit_of_done hmark] at h
          cases h
      | none =>
        have hless := unknown_insert_lt hk hmark Mark.opened
        have hacc₁ : ∀ a : K, (marks.insert k .opened)[a]? = some Mark.done →
            Acc (fun b a => Edge succ a b) a := by
          intro a ha
          rcases (Table.getElem?_insert_eq_some _).1 ha with ⟨-, hm⟩ | ⟨-, ha⟩
          · cases hm
          · exact hacc a ha
        rw [visit_of_fresh hsucc hmark] at h
        have hdeep : visitEach (visit succ depth) next (marks.insert k .opened) = .deep := by
          cases hres : visitEach (visit succ depth) next (marks.insert k .opened) with
          | ok marks₁ => rw [hres] at h; cases h
          | cycle b => rw [hres] at h; cases h
          | deep => rfl
        exact visitEach_ne_deep ih hacc₁ (fun j hj => hU k j ⟨next, hsucc, hj⟩) (by omega) hdeep

end

/-! ## What the evaluating walk computes -/

section

variable [Std.LawfulEqOrd K] {next : K → List K} {leaf : K → V} {value : K → List V → V}

/-- Every value is that of the node's successors, which are in the table too. -/
def Consistent (next : K → List K) (value : K → List V → V) (memo : Table K (Option V)) : Prop :=
  ∀ (a : K) (v : V), memo[a]? = some (some v) →
    ∃ vs, List.Forall₂ (fun b w => memo[b]? = some (some w)) (next a) vs ∧ v = value a vs

/-- The second table has everything the first one has, and no other open nodes. -/
structure Fills (memo memo' : Table K (Option V)) : Prop where
  keeps : ∀ (a : K) (v : Option V), memo[a]? = some v → memo'[a]? = some v
  opened : ∀ a : K, memo'[a]? = some none → memo[a]? = some none

omit [Std.LawfulEqOrd K] in
theorem Fills.refl (memo : Table K (Option V)) : Fills memo memo := ⟨fun _ _ h => h, fun _ h => h⟩

omit [Std.LawfulEqOrd K] in
theorem Fills.trans {a b c : Table K (Option V)} (hab : Fills a b) (hbc : Fills b c) : Fills a c :=
  ⟨fun k v h => hbc.keeps k v (hab.keeps k v h), fun k h => hab.opened k (hbc.opened k h)⟩

/-- Opening a node that the table does not have yet breaks no value. -/
theorem Consistent.open_ {memo : Table K (Option V)} (h : Consistent next value memo) {k : K}
    (hfree : memo[k]? = none) : Consistent next value (memo.insert k none) := by
  intro a v ha
  rcases (Table.getElem?_insert_eq_some _).1 ha with ⟨-, hv⟩ | ⟨-, ha⟩
  · cases hv
  · obtain ⟨vs, hvs, hv⟩ := h a v ha
    refine ⟨vs, hvs.imp fun b w hb => ?_, hv⟩
    have hne : b ≠ k := by rintro rfl; rw [hfree] at hb; cases hb
    rw [Table.getElem?_insert_of_ne _ hne]
    exact hb

/-- Closing an open node with the value of its successors. -/
theorem Consistent.close {memo : Table K (Option V)} (h : Consistent next value memo) {k : K}
    (hopen : memo[k]? = some none) {vs : List V}
    (hvs : List.Forall₂ (fun b w => memo[b]? = some (some w)) (next k) vs) :
    Consistent next value (memo.insert k (some (value k vs))) := by
  have keep : ∀ (b : K) (w : V), memo[b]? = some (some w) →
      (memo.insert k (some (value k vs)))[b]? = some (some w) := by
    intro b w hb
    have hne : b ≠ k := by rintro rfl; rw [hopen] at hb; cases hb
    rw [Table.getElem?_insert_of_ne _ hne]
    exact hb
  intro a v ha
  rcases (Table.getElem?_insert_eq_some _).1 ha with ⟨rfl, hv⟩ | ⟨-, ha⟩
  · cases hv
    exact ⟨vs, hvs.imp keep, rfl⟩
  · obtain ⟨ws, hws, hv⟩ := h a v ha
    exact ⟨ws, hws.imp keep, hv⟩

/-- What `eval` promises of one node, and of a list of them. -/
def Evaluates (next : K → List K) (value : K → List V → V)
    (go : Table K (Option V) → K → Option (V × Table K (Option V))) (k : K) : Prop :=
  ∀ (memo : Table K (Option V)) (v : V) (memo' : Table K (Option V)),
    Consistent next value memo →
    (∀ a : K, memo[a]? = some none → Relation.TransGen (fun a b => b ∈ next a) a k) →
    go memo k = some (v, memo') →
    Fills memo memo' ∧ Consistent next value memo' ∧ memo'[k]? = some (some v)

omit [Std.LawfulEqOrd K] in
theorem evalEach_spec {go : Table K (Option V) → K → Option (V × Table K (Option V))}
    {ks : List K} (hgo : ∀ k ∈ ks, Evaluates next value go k) :
    ∀ {memo : Table K (Option V)} {vs : List V} {memo' : Table K (Option V)},
      Consistent next value memo →
      (∀ a : K, memo[a]? = some none → ∀ k ∈ ks, Relation.TransGen (fun a b => b ∈ next a) a k) →
      evalEach go ks memo = some (vs, memo') →
      Fills memo memo' ∧ Consistent next value memo' ∧
        List.Forall₂ (fun b w => memo'[b]? = some (some w)) ks vs := by
  induction ks with
  | nil =>
    intro memo vs memo' hc _ h
    cases h
    exact ⟨.refl memo, hc, .nil⟩
  | cons k rest ih =>
    intro memo vs memo' hc habove h
    unfold evalEach at h
    cases hstep : go memo k with
    | none => rw [hstep] at h; cases h
    | some one =>
      obtain ⟨v, memo₁⟩ := one
      rw [hstep] at h
      simp only at h
      cases hrest : evalEach go rest memo₁ with
      | none => rw [hrest] at h; cases h
      | some others =>
        obtain ⟨ws, memo₂⟩ := others
        rw [hrest] at h
        cases h
        obtain ⟨hfill, hc₁, hk⟩ := hgo k List.mem_cons_self memo v memo₁ hc
          (fun a ha => habove a ha k List.mem_cons_self) hstep
        obtain ⟨hfill₂, hc₂, hall⟩ := ih (fun j hj => hgo j (List.mem_cons_of_mem _ hj)) hc₁
          (fun a ha j hj => habove a (hfill.opened a ha) j (List.mem_cons_of_mem _ hj)) hrest
        exact ⟨hfill.trans hfill₂, hc₂, .cons (hfill₂.keeps k _ hk) hall⟩

/-- In a graph without cycles the value of a node is that of its successors. -/
theorem eval_spec (hcycle : ∀ a : K, ¬ Relation.TransGen (fun a b => b ∈ next a) a a) (depth : ℕ)
    (k : K) : Evaluates next value (eval next leaf value depth) k := by
  induction depth generalizing k with
  | zero =>
    intro memo v memo' _ _ h
    cases h
  | succ depth ih =>
    intro memo v memo' hc habove h
    unfold eval at h
    cases hk : memo[k]? with
    | some got =>
      rw [hk] at h
      cases got with
      | none => exact absurd (habove k hk) (hcycle k)
      | some w =>
        cases h
        exact ⟨.refl _, hc, hk⟩
    | none =>
      rw [hk] at h
      simp only at h
      cases heach : evalEach (eval next leaf value depth) (next k) (memo.insert k none) with
      | none => rw [heach] at h; cases h
      | some res =>
        obtain ⟨vs, memo₁⟩ := res
        rw [heach] at h
        cases h
        have habove₁ : ∀ a : K, (memo.insert k none)[a]? = some none →
            ∀ j ∈ next k, Relation.TransGen (fun a b => b ∈ next a) a j := by
          intro a ha j hj
          rcases (Table.getElem?_insert_eq_some _).1 ha with ⟨rfl, -⟩ | ⟨-, ha⟩
          · exact .single hj
          · exact (habove a ha).tail hj
        obtain ⟨hfill, hc₁, hvs⟩ := evalEach_spec (fun j _ => ih j) (hc.open_ hk) habove₁ heach
        have hopen : memo₁[k]? = some none := hfill.keeps k none (Table.getElem?_insert_self _ _ _)
        refine ⟨⟨?_, ?_⟩, hc₁.close hopen hvs, Table.getElem?_insert_self _ _ _⟩
        · intro a w ha
          have hne : a ≠ k := by rintro rfl; rw [hk] at ha; cases ha
          rw [Table.getElem?_insert_of_ne _ hne]
          refine hfill.keeps a w ?_
          rw [Table.getElem?_insert_of_ne _ hne]
          exact ha
        · intro a ha
          rcases (Table.getElem?_insert_eq_some _).1 ha with ⟨-, hv⟩ | ⟨hne, ha⟩
          · cases hv
          · have := hfill.opened a ha
            rwa [Table.getElem?_insert_of_ne _ hne] at this

omit [Std.LawfulEqOrd K] in
theorem evalEach_ne_none {U : Finset K} {depth : ℕ}
    {go : Table K (Option V) → K → Option (V × Table K (Option V))}
    (hgo : ∀ {memo : Table K (Option V)} {k : K}, k ∈ U → unknown U memo < depth →
      ∃ v memo', go memo k = some (v, memo') ∧
        ∀ (a : K) (w : Option V), memo[a]? = some w → memo'[a]? ≠ none)
    (ks : List K) (memo : Table K (Option V)) (hks : ∀ k ∈ ks, k ∈ U)
    (hdepth : unknown U memo < depth) :
    ∃ vs memo', evalEach go ks memo = some (vs, memo') ∧
      ∀ (a : K) (w : Option V), memo[a]? = some w → memo'[a]? ≠ none := by
  induction ks generalizing memo with
  | nil => exact ⟨[], memo, rfl, fun a w h => by rw [h]; exact Option.some_ne_none w⟩
  | cons k rest ih =>
    obtain ⟨v, memo₁, hstep, hkeep⟩ := hgo (hks k List.mem_cons_self) hdepth
    obtain ⟨vs, memo₂, hrest, hkeep₂⟩ := ih memo₁ (fun j hj => hks j (List.mem_cons_of_mem _ hj))
      (lt_of_le_of_lt (unknown_le hkeep) hdepth)
    refine ⟨v :: vs, memo₂, by unfold evalEach; rw [hstep]; simp only; rw [hrest], ?_⟩
    intro a w ha
    obtain ⟨u, hu⟩ := Option.ne_none_iff_exists'.1 (hkeep a w ha)
    exact hkeep₂ a u hu

/-- A depth over the number of unknown nodes gives every node a value. -/
theorem eval_ne_none {U : Finset K} (hU : ∀ a b, b ∈ next a → b ∈ U) (depth : ℕ) :
    ∀ {memo : Table K (Option V)} {k : K}, k ∈ U → unknown U memo < depth →
      ∃ v memo', eval next leaf value depth memo k = some (v, memo') ∧
        ∀ (a : K) (w : Option V), memo[a]? = some w → memo'[a]? ≠ none := by
  induction depth with
  | zero =>
    intro memo k _ hdepth
    exact absurd hdepth (Nat.not_lt_zero _)
  | succ depth ih =>
    intro memo k hk hdepth
    unfold eval
    cases hmark : memo[k]? with
    | some got =>
      cases got with
      | none => exact ⟨_, _, rfl, fun a w h => by rw [h]; exact Option.some_ne_none w⟩
      | some v => exact ⟨_, _, rfl, fun a w h => by rw [h]; exact Option.some_ne_none w⟩
    | none =>
      have hless := unknown_insert_lt hk hmark (none : Option V)
      obtain ⟨vs, memo', heach, hkeep⟩ := evalEach_ne_none ih (next k)
        (memo.insert k none) (fun j hj => hU k j hj) (by omega)
      simp only [heach]
      refine ⟨_, _, rfl, ?_⟩
      intro a w ha
      have hne : a ≠ k := by rintro rfl; rw [hmark] at ha; cases ha
      rw [Table.getElem?_insert_of_ne _ hne]
      exact hkeep a w (by rw [Table.getElem?_insert_of_ne _ hne]; exact ha)

/-- `eval` without its branch for an open node: there it gives up. -/
def evalClosed (next : K → List K) (value : K → List V → V) :
    ℕ → Table K (Option V) → K → Option (V × Table K (Option V))
  | 0, _, _ => none
  | depth + 1, memo, k =>
    match memo[k]? with
    | some (some v) => some (v, memo)
    | some none => none
    | none =>
      match evalEach (evalClosed next value depth) (next k) (memo.insert k none) with
      | none => none
      | some (vs, memo) => some (value k vs, memo.insert k (some (value k vs)))

omit [Std.TransOrd K] [Std.LawfulEqOrd K] in
/-- A loop that takes the same steps ends the same. `I` is what the steps keep. -/
theorem evalEach_congr {I : Table K (Option V) → Prop}
    {go go' : Table K (Option V) → K → Option (V × Table K (Option V))} {ks : List K}
    (hgo : ∀ memo, I memo → ∀ k ∈ ks, go memo k = go' memo k)
    (hkeep : ∀ memo, I memo → ∀ k ∈ ks, ∀ v memo', go memo k = some (v, memo') → I memo')
    {memo : Table K (Option V)} (hI : I memo) : evalEach go ks memo = evalEach go' ks memo := by
  induction ks generalizing memo with
  | nil => rfl
  | cons k rest ih =>
    unfold evalEach
    rw [← hgo memo hI k List.mem_cons_self]
    cases hstep : go memo k with
    | none => rfl
    | some one =>
      obtain ⟨v, memo₁⟩ := one
      simp only
      rw [ih (fun m hm j hj => hgo m hm j (List.mem_cons_of_mem _ hj))
        (fun m hm j hj => hkeep m hm j (List.mem_cons_of_mem _ hj))
        (hkeep memo hI k List.mem_cons_self v memo₁ hstep)]

/-- In a graph without cycles no call meets an open node. -/
theorem eval_eq_evalClosed (hcycle : ∀ a : K, ¬ Relation.TransGen (fun a b => b ∈ next a) a a)
    (depth : ℕ) : ∀ (memo : Table K (Option V)) (k : K), Consistent next value memo →
      (∀ a : K, memo[a]? = some none → Relation.TransGen (fun a b => b ∈ next a) a k) →
      eval next leaf value depth memo k = evalClosed next value depth memo k := by
  induction depth with
  | zero => exact fun _ _ _ _ => rfl
  | succ depth ih =>
    intro memo k hc habove
    unfold eval evalClosed
    cases hk : memo[k]? with
    | some got =>
      cases got with
      | none => exact absurd (habove k hk) (hcycle k)
      | some w => rfl
    | none =>
      simp only
      have habove₁ : ∀ a : K, (memo.insert k none)[a]? = some none →
          ∀ j ∈ next k, Relation.TransGen (fun a b => b ∈ next a) a j := by
        intro a ha j hj
        rcases (Table.getElem?_insert_eq_some _).1 ha with ⟨rfl, -⟩ | ⟨-, ha⟩
        · exact .single hj
        · exact (habove a ha).tail hj
      have hloop := evalEach_congr
        (I := fun m => Consistent next value m ∧
          ∀ a : K, m[a]? = some none → ∀ j ∈ next k, Relation.TransGen (fun a b => b ∈ next a) a j)
        (fun m hm j hj => ih m j hm.1 fun a ha => hm.2 a ha j hj)
        (fun m hm j hj v m' hstep => by
          obtain ⟨hfill, hc', -⟩ :=
            eval_spec hcycle depth j m v m' hm.1 (fun a ha => hm.2 a ha j hj) hstep
          exact ⟨hc', fun a ha => hm.2 a (hfill.opened a ha)⟩)
        ⟨hc.open_ hk, habove₁⟩
      rw [hloop]

omit [Std.LawfulEqOrd K] in
end

end Spn.Lib.DepthFirst
