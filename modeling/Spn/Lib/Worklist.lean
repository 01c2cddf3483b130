import Mathlib

/-! # Worklists

What is reachable from a set of roots, by a stack of nodes whose successors are
still to be marked. A node is pushed when it is marked, so the loop takes no more
steps than there are nodes.
-/
namespace Spn.Lib.Worklist

variable {K : Type} [DecidableEq K]

/-- Marks and pushes a node that was not marked. -/
def push (acc : Finset K × List K) (k : K) : Finset K × List K :=
  if k ∈ acc.1 then acc else (insert k acc.1, k :: acc.2)

/-- The loop: `none` when the steps run out. -/
def close (succ : K → List K) : ℕ → Finset K × List K → Option (Finset K)
  | 0, _ => none
  | _ + 1, (visited, []) => some visited
  | fuel + 1, (visited, k :: frontier) =>
    close succ fuel ((succ k).foldl push (visited, frontier))

/-- The nodes the roots reach. -/
def Reached (succ : K → List K) (roots : List K) (k : K) : Prop :=
  ∃ root ∈ roots, Relation.ReflTransGen (fun a b => b ∈ succ a) root k

theorem push_fst (acc : Finset K × List K) (k : K) : (push acc k).1 = insert k acc.1 := by
  unfold push
  split_ifs with h
  · exact (Finset.insert_eq_self.2 h).symm
  · rfl

theorem mem_foldl_push {ks : List K} {acc : Finset K × List K} {a : K} :
    a ∈ (ks.foldl push acc).1 ↔ a ∈ acc.1 ∨ a ∈ ks := by
  induction ks generalizing acc with
  | nil => simp
  | cons k ks ih =>
    rw [List.foldl_cons, ih, push_fst, Finset.mem_insert, List.mem_cons]
    tauto

theorem mem_frontier {ks : List K} {acc : Finset K × List K} {a : K}
    (h : a ∈ (ks.foldl push acc).2) : a ∈ acc.2 ∨ a ∈ ks := by
  induction ks generalizing acc with
  | nil => exact .inl h
  | cons k ks ih =>
    rcases ih h with h | h
    · unfold push at h
      split_ifs at h with hk
      · exact .inl h
      · rcases List.mem_cons.1 h with rfl | h
        · exact .inr (by simp)
        · exact .inl h
    · exact .inr (by simp [h])

theorem frontier_subset {ks : List K} {acc : Finset K × List K} {a : K} (h : a ∈ acc.2) :
    a ∈ (ks.foldl push acc).2 := by
  induction ks generalizing acc with
  | nil => exact h
  | cons k ks ih =>
    refine ih ?_
    unfold push
    split_ifs
    · exact h
    · exact List.mem_cons_of_mem _ h

theorem fresh_mem_frontier {ks : List K} {acc : Finset K × List K} {a : K} (h : a ∈ ks)
    (hn : a ∉ acc.1) : a ∈ (ks.foldl push acc).2 := by
  induction ks generalizing acc with
  | nil => cases h
  | cons k ks ih =>
    rw [List.foldl_cons]
    by_cases hk : a = k
    · subst hk
      refine frontier_subset ?_
      simp [push, hn]
    · refine ih ((List.mem_cons.1 h).resolve_left hk) ?_
      rw [push_fst, Finset.mem_insert]
      exact not_or.2 ⟨hk, hn⟩

/-- What is marked or waits grows no faster than what is left to be marked. -/
theorem foldl_push_budget {U : Finset K} {ks : List K} (hks : ∀ k ∈ ks, k ∈ U)
    (acc : Finset K × List K) :
    (U \ (ks.foldl push acc).1).card + (ks.foldl push acc).2.length ≤
      (U \ acc.1).card + acc.2.length := by
  induction ks generalizing acc with
  | nil => simp
  | cons k ks ih =>
    refine (ih (fun a ha => hks a (List.mem_cons_of_mem _ ha)) _).trans ?_
    unfold push
    split_ifs with hk
    · exact le_rfl
    · have hlt : (U \ insert k acc.1).card < (U \ acc.1).card := by
        refine Finset.card_lt_card ⟨fun a ha => ?_, fun hsub => ?_⟩
        · simp only [Finset.mem_sdiff, Finset.mem_insert, not_or] at ha ⊢
          exact ⟨ha.1, ha.2.2⟩
        · have := hsub (Finset.mem_sdiff.2 ⟨hks k (by simp), hk⟩)
          simp at this
      simp only [List.length_cons]
      omega

/-- The loop ends when there are enough steps. -/
theorem close_ne_none {succ : K → List K} {U : Finset K} (hU : ∀ a, ∀ b ∈ succ a, b ∈ U)
    (fuel : ℕ) (acc : Finset K × List K) (h : (U \ acc.1).card + acc.2.length < fuel) :
    close succ fuel acc ≠ none := by
  induction fuel generalizing acc with
  | zero => omega
  | succ fuel ih =>
    obtain ⟨visited, frontier⟩ := acc
    cases frontier with
    | nil => simp [close]
    | cons k frontier =>
      refine ih _ ?_
      have := foldl_push_budget (hU k) (visited, frontier)
      simp only [List.length_cons] at h this
      omega

/-- What the loop keeps: everything marked is reached, what waits is marked, and the
successors of what is marked and does not wait are marked. -/
structure Frontier (succ : K → List K) (roots : List K) (acc : Finset K × List K) : Prop where
  seeded : ∀ root ∈ roots, root ∈ acc.1
  reached : ∀ a ∈ acc.1, Reached succ roots a
  waiting : ∀ a ∈ acc.2, a ∈ acc.1
  settled : ∀ a ∈ acc.1, a ∉ acc.2 → ∀ b ∈ succ a, b ∈ acc.1

theorem Frontier.step {succ : K → List K} {roots : List K} {visited : Finset K} {k : K}
    {frontier : List K} (h : Frontier succ roots (visited, k :: frontier)) :
    Frontier succ roots ((succ k).foldl push (visited, frontier)) := by
  have hk : k ∈ visited := h.waiting k (by simp)
  refine ⟨fun root hr => mem_foldl_push.2 (.inl (h.seeded root hr)), ?_, ?_, ?_⟩
  · intro a ha
    rcases mem_foldl_push.1 ha with ha | ha
    · exact h.reached a ha
    · obtain ⟨root, hr, hp⟩ := h.reached k hk
      exact ⟨root, hr, hp.tail ha⟩
  · intro a ha
    rcases mem_frontier ha with ha | ha
    · exact mem_foldl_push.2 (.inl (h.waiting a (List.mem_cons_of_mem _ ha)))
    · exact mem_foldl_push.2 (.inr ha)
  · intro a ha hn b hb
    by_cases hak : a = k
    · subst hak
      exact mem_foldl_push.2 (.inr hb)
    · by_cases hv : a ∈ visited
      · have hf : a ∉ k :: frontier := by
          intro hm
          rcases List.mem_cons.1 hm with hm | hm
          · exact hak hm
          · exact hn (frontier_subset hm)
        exact mem_foldl_push.2 (.inl (h.settled a hv hf b hb))
      · exact absurd (fresh_mem_frontier ((mem_foldl_push.1 ha).resolve_left hv) hv) hn

/-- The loop marks exactly what the roots reach. -/
theorem mem_of_close {succ : K → List K} {roots : List K} {fuel : ℕ} {acc : Finset K × List K}
    (h : Frontier succ roots acc) {out : Finset K} (hout : close succ fuel acc = some out) (a : K) :
    a ∈ out ↔ Reached succ roots a := by
  induction fuel generalizing acc with
  | zero => cases hout
  | succ fuel ih =>
    obtain ⟨visited, frontier⟩ := acc
    cases frontier with
    | cons k frontier => exact ih h.step hout
    | nil =>
      cases hout
      clear ih
      constructor
      · exact h.reached a
      · rintro ⟨root, hr, hp⟩
        induction hp with
        | refl => exact h.seeded root hr
        | tail _ hb ih => exact h.settled _ ih (by simp) _ hb

theorem Frontier.start {succ : K → List K} (roots : List K) :
    Frontier succ roots (roots.foldl push (∅, [])) := by
  refine ⟨fun root hr => mem_foldl_push.2 (.inr hr), ?_, ?_, ?_⟩
  · intro a ha
    have ha : a ∈ roots := by simpa [mem_foldl_push] using ha
    exact ⟨a, ha, .refl⟩
  · intro a ha
    have ha : a ∈ roots := by simpa using mem_frontier ha
    exact mem_foldl_push.2 (.inr ha)
  · intro a ha hn
    have ha : a ∈ roots := by simpa [mem_foldl_push] using ha
    exact absurd (fresh_mem_frontier ha (by simp)) hn

end Spn.Lib.Worklist
