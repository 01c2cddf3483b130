import Mathlib

/-! # Depth-first walks in post-order

A walk goes down every edge to a node it has not seen and lists the node when it comes
back up, under a label that the edges of the way down make. On an acyclic graph the list
holds every node behind the nodes it leads to, and the way down to a node is the first of
the paths to it.
-/
namespace Spn.Lib.PostOrder

/-- A graph, by the edges that leave a node, and what an edge makes of a label. -/
structure Net (K E L : Type) where
  next : K → List E
  dst : E → K
  step : L → E → L

/-- What was seen, newest first, and what is listed. -/
structure Trail (K L : Type) where
  visited : List K
  order : List (K × L)

variable {K E L : Type}

/-- The walk down `es`, at most `depth` nodes deep. -/
def walk [DecidableEq K] (N : Net K E L) : ℕ → L → List E → Trail K L → Trail K L
  | 0, _, _, t => t
  | depth + 1, l, es, t =>
    es.foldl (fun t e =>
      if N.dst e ∈ t.visited then t
      else
        let t := walk N depth (N.step l e) (N.next (N.dst e)) { t with visited := N.dst e :: t.visited }
        { t with order := t.order ++ [(N.dst e, N.step l e)] }) t

variable {N : Net K E L}

/-- The walk as a relation: from what was seen to what is listed and seen then. -/
inductive Walks (N : Net K E L) : L → List E → List K → List (K × L) → List K → Prop
  | nil (l : L) (vis : List K) : Walks N l [] vis [] vis
  | skip {l : L} {e : E} {es : List E} {vis vis' : List K} {new : List (K × L)} :
      N.dst e ∈ vis → Walks N l es vis new vis' → Walks N l (e :: es) vis new vis'
  | visit {l : L} {e : E} {es : List E} {vis vis₁ vis' : List K} {below new : List (K × L)} :
      N.dst e ∉ vis → Walks N (N.step l e) (N.next (N.dst e)) (N.dst e :: vis) below vis₁ →
      Walks N l es vis₁ new vis' →
      Walks N l (e :: es) vis (below ++ (N.dst e, N.step l e) :: new) vis'

/-- The names of a list of entries. -/
abbrev keys (entries : List (K × L)) : List K := entries.map Prod.fst

namespace Net

/-- An edge between two nodes. -/
def Edge (N : Net K E L) (a b : K) : Prop := ∃ e ∈ N.next a, N.dst e = b

/-- A node that one of the edges leads to. -/
def From (N : Net K E L) (es : List E) (k : K) : Prop :=
  ∃ e ∈ es, Relation.ReflTransGen N.Edge (N.dst e) k

def Acyclic (N : Net K E L) : Prop := ∀ k, ¬Relation.TransGen N.Edge k k

/-- The path to a node that comes first when the edges are tried in their order. -/
inductive First (N : Net K E L) : List E → List E → K → Prop
  | here (e : E) (es : List E) : First N (e :: es) [e] (N.dst e)
  | down {e : E} {es path : List E} {k : K} : N.dst e ≠ k → First N (N.next (N.dst e)) path k →
      First N (e :: es) (e :: path) k
  | next {e : E} {es path : List E} {k : K} : ¬Relation.ReflTransGen N.Edge (N.dst e) k →
      First N es path k → First N (e :: es) path k

variable {es : List E} {e : E} {k k' : K}

theorem From.tail (h : N.From es k) : N.From (e :: es) k := by
  obtain ⟨a, ha, hk⟩ := h
  exact ⟨a, List.mem_cons_of_mem _ ha, hk⟩

theorem From.of_head (h : Relation.ReflTransGen N.Edge (N.dst e) k) : N.From (e :: es) k :=
  ⟨e, List.mem_cons_self, h⟩

theorem From.transGen (h : N.From (N.next k) k') : Relation.TransGen N.Edge k k' := by
  obtain ⟨a, ha, hk⟩ := h
  exact .head' ⟨a, ha, rfl⟩ hk

theorem From.of_transGen (h : Relation.TransGen N.Edge k k') : N.From (N.next k) k' := by
  obtain ⟨b, hb, hk⟩ := Relation.TransGen.head'_iff.1 h
  obtain ⟨a, ha, rfl⟩ := hb
  exact ⟨a, ha, hk⟩

/-- What lies below the end of the first edge lies below the edges. -/
theorem From.down (h : N.From (N.next (N.dst e)) k) : N.From (e :: es) k :=
  .of_head h.transGen.to_reflTransGen

theorem First.reaches {path : List E} (h : N.First es path k) : N.From es k := by
  induction h with
  | here e es => exact .of_head .refl
  | down _ _ ih => exact ih.down
  | next _ _ ih => exact ih.tail

/-- There is one first path to a node. -/
theorem First.unique {path path' : List E} (h : N.First es path k) (h' : N.First es path' k) :
    path = path' := by
  induction h generalizing path' with
  | here e es =>
    cases h' with
    | here => rfl
    | down hne => exact absurd rfl hne
    | next hno => exact absurd .refl hno
  | down hne hfirst ih =>
    cases h' with
    | here => exact absurd rfl hne
    | down _ h' => rw [ih h']
    | next hno => exact absurd hfirst.reaches.transGen.to_reflTransGen hno
  | next hno _ ih =>
    cases h' with
    | here => exact absurd .refl hno
    | down _ h' => exact absurd h'.reaches.transGen.to_reflTransGen hno
    | next _ h' => exact ih h'

end Net

open Net

/-! ## The loop is a walk -/

/-- The nodes that are not seen. -/
def unseen [Fintype K] [DecidableEq K] (vis : List K) : ℕ := (Finset.univ.filter (· ∉ vis)).card

theorem unseen_append_le [Fintype K] [DecidableEq K] (new vis : List K) :
    unseen (new ++ vis) ≤ unseen vis := by
  refine Finset.card_le_card fun k hk => ?_
  simp only [Finset.mem_filter, List.mem_append, not_or] at hk ⊢
  exact ⟨hk.1, hk.2.2⟩

theorem unseen_cons_lt [Fintype K] [DecidableEq K] {k : K} {vis : List K} (h : k ∉ vis) :
    unseen (k :: vis) < unseen vis := by
  refine Finset.card_lt_card (Finset.ssubset_iff_of_subset (fun a ha => ?_) |>.2 ⟨k, ?_, ?_⟩)
  · simp only [Finset.mem_filter, List.mem_cons, not_or] at ha ⊢
    exact ⟨ha.1, ha.2.2⟩
  · simp [h]
  · simp

/-- What is seen stays seen. -/
theorem Walks.visited {l : L} {es : List E} {vis vis' : List K} {new : List (K × L)}
    (h : Walks N l es vis new vis') : ∃ pre, vis' = pre ++ vis ∧ pre.Perm (keys new) := by
  induction h with
  | nil l vis => exact ⟨[], rfl, .refl _⟩
  | skip _ _ ih => exact ih
  | @visit l e es vis vis₁ vis' below new _ _ _ ih ih' =>
    obtain ⟨pre, rfl, hpre⟩ := ih
    obtain ⟨post, rfl, hpost⟩ := ih'
    refine ⟨post ++ pre ++ [N.dst e], by simp, ?_⟩
    have hswap : (post ++ pre ++ [N.dst e]).Perm (pre ++ N.dst e :: post) := by
      rw [List.append_assoc]
      refine List.perm_append_comm.trans ?_
      rw [List.append_assoc]
      exact .refl _
    refine hswap.trans ?_
    simp only [keys, List.map_append, List.map_cons]
    exact hpre.append (.cons _ hpost)

/-- What is seen stays seen, whatever the depth. -/
theorem mem_walk_visited [DecidableEq K] {depth : ℕ} {l : L} {es : List E} {t : Trail K L} {k : K}
    (h : k ∈ t.visited) : k ∈ (walk N depth l es t).visited := by
  induction depth generalizing l es t with
  | zero => exact h
  | succ depth ih =>
    unfold walk
    induction es generalizing t with
    | nil => exact h
    | cons e es ihes =>
      rw [List.foldl_cons]
      apply ihes
      split_ifs
      · exact h
      · exact ih (List.mem_cons_of_mem _ h)

@[simp]
theorem walk_nil [DecidableEq K] (depth : ℕ) (l : L) (t : Trail K L) : walk N depth l [] t = t := by
  cases depth <;> rfl

/-- With a depth over the number of unseen nodes, `walk` walks. -/
theorem walk_walks [Fintype K] [DecidableEq K] {depth : ℕ} {l : L} (es : List E) {t : Trail K L}
    (h : unseen t.visited < depth) :
    ∃ new, (walk N depth l es t).order = t.order ++ new ∧
      Walks N l es t.visited new (walk N depth l es t).visited := by
  induction depth generalizing l es t with
  | zero => exact absurd h (Nat.not_lt_zero _)
  | succ depth ih =>
    unfold walk
    induction es generalizing t with
    | nil => exact ⟨[], by simp, .nil l _⟩
    | cons e es ihes =>
      rw [List.foldl_cons]
      by_cases he : N.dst e ∈ t.visited
      · rw [if_pos he]
        obtain ⟨new, horder, hwalk⟩ := ihes h
        exact ⟨new, horder, .skip he hwalk⟩
      · rw [if_neg he]
        have hlt := unseen_cons_lt he
        obtain ⟨below, hbelow, hdown⟩ := ih (l := N.step l e) (N.next (N.dst e))
          (t := { t with visited := N.dst e :: t.visited }) (by simp only; omega)
        generalize walk N depth (N.step l e) (N.next (N.dst e))
          { t with visited := N.dst e :: t.visited } = t₁ at hbelow hdown
        have hle : unseen t₁.visited ≤ unseen (N.dst e :: t.visited) := by
          obtain ⟨pre, hpre, -⟩ := hdown.visited
          rw [hpre]
          exact unseen_append_le pre _
        obtain ⟨new, hnew, hrest⟩ := ihes (t := { t₁ with order := t₁.order ++ [(N.dst e, N.step l e)] })
          (by simp only; omega)
        refine ⟨below ++ (N.dst e, N.step l e) :: new, ?_, .visit he hdown hrest⟩
        rw [hnew, hbelow]
        simp

/-! ## What a walk lists -/

section

variable {l : L} {es : List E} {vis vis' : List K} {new : List (K × L)}

theorem Walks.mem_visited (h : Walks N l es vis new vis') {k : K} :
    k ∈ vis' ↔ k ∈ keys new ∨ k ∈ vis := by
  obtain ⟨pre, rfl, hpre⟩ := h.visited
  rw [List.mem_append, hpre.mem_iff]

theorem Walks.fresh (h : Walks N l es vis new vis') : ∀ k ∈ keys new, k ∉ vis := by
  induction h with
  | nil => exact fun k hk => absurd hk List.not_mem_nil
  | skip _ _ ih => exact ih
  | visit he hdown _ ih ih' =>
    intro k hk
    simp only [keys, List.map_append, List.map_cons, List.mem_append, List.mem_cons] at hk
    rcases hk with hk | rfl | hk
    · exact fun hvis => ih k hk (List.mem_cons_of_mem _ hvis)
    · exact he
    · exact fun hvis => ih' k hk (hdown.mem_visited.2 (.inr (List.mem_cons_of_mem _ hvis)))

/-- Nothing is listed twice. -/
theorem Walks.nodup (h : Walks N l es vis new vis') : (keys new).Nodup := by
  induction h with
  | nil => exact List.nodup_nil
  | skip _ _ ih => exact ih
  | @visit l e es vis vis₁ vis' below new he hdown hrest ih ih' =>
    simp only [keys, List.map_append, List.map_cons]
    refine List.nodup_append.2 ⟨ih, List.nodup_cons.2 ⟨fun hmem => ?_, ih'⟩, fun a ha b hb hab => ?_⟩
    · exact hrest.fresh _ hmem (hdown.mem_visited.2 (.inr List.mem_cons_self))
    · subst hab
      rcases List.mem_cons.1 hb with rfl | hb
      · exact hdown.fresh _ ha List.mem_cons_self
      · exact hrest.fresh _ hb (hdown.mem_visited.2 (.inl ha))

/-- Only what the edges lead to is listed. -/
theorem Walks.reaches (h : Walks N l es vis new vis') : ∀ k ∈ keys new, N.From es k := by
  induction h with
  | nil => exact fun k hk => absurd hk List.not_mem_nil
  | skip _ _ ih => exact fun k hk => (ih k hk).tail
  | visit _ _ _ ih ih' =>
    intro k hk
    simp only [keys, List.map_append, List.map_cons, List.mem_append, List.mem_cons] at hk
    rcases hk with hk | rfl | hk
    · exact (ih k hk).down
    · exact .of_head .refl
    · exact (ih' k hk).tail

theorem Walks.covers (h : Walks N l es vis new vis') : ∀ e ∈ es, N.dst e ∈ vis' := by
  induction h with
  | nil => exact fun e he => absurd he List.not_mem_nil
  | skip hmem hrest ih =>
    intro a ha
    rcases List.mem_cons.1 ha with rfl | ha
    · exact hrest.mem_visited.2 (.inr hmem)
    · exact ih a ha
  | visit _ hdown hrest _ ih' =>
    intro a ha
    rcases List.mem_cons.1 ha with rfl | ha
    · exact hrest.mem_visited.2 (.inr (hdown.mem_visited.2 (.inr List.mem_cons_self)))
    · exact ih' a ha

/-- A listed node has its successors seen. -/
theorem Walks.closed (h : Walks N l es vis new vis') :
    ∀ k ∈ keys new, ∀ k', N.Edge k k' → k' ∈ vis' := by
  induction h with
  | nil => exact fun k hk => absurd hk List.not_mem_nil
  | skip _ _ ih => exact ih
  | visit _ hdown hrest ih ih' =>
    intro k hk k' hedge
    simp only [keys, List.map_append, List.map_cons, List.mem_append, List.mem_cons] at hk
    rcases hk with hk | rfl | hk
    · exact hrest.mem_visited.2 (.inr (ih k hk k' hedge))
    · obtain ⟨a, ha, rfl⟩ := hedge
      exact hrest.mem_visited.2 (.inr (hdown.covers a ha))
    · exact ih' k hk k' hedge

/-- What was seen of what the edges lead to was seen with all that lies below. -/
def Settled (N : Net K E L) (es : List E) (vis : List K) : Prop :=
  ∀ x ∈ vis, N.From es x → ∀ y, Relation.ReflTransGen N.Edge x y → y ∈ vis

/-- Everything the edges lead to is seen. -/
theorem Walks.complete (h : Walks N l es vis new vis') (hset : Settled N es vis) :
    ∀ k, N.From es k → k ∈ vis' := by
  intro k hk
  obtain ⟨e, he, hreach⟩ := hk
  induction hreach with
  | refl => exact h.covers e he
  | @tail b c hb hedge ih =>
    rcases h.mem_visited.1 ih with hnew | hvis
    · exact h.closed b hnew c hedge
    · exact h.mem_visited.2 (.inr (hset b hvis ⟨e, he, hb⟩ c (.single hedge)))

theorem Settled.tail {e : E} (h : Settled N (e :: es) vis) : Settled N es vis :=
  fun x hx hfrom => h x hx hfrom.tail

/-- A node that is opened is not below itself. -/
theorem Settled.open (hac : N.Acyclic) {e : E} (h : Settled N (e :: es) vis) :
    Settled N (N.next (N.dst e)) (N.dst e :: vis) := by
  intro x hx hfrom y hy
  rcases List.mem_cons.1 hx with rfl | hx
  · exact absurd hfrom.transGen (hac _)
  · exact List.mem_cons_of_mem _ (h x hx hfrom.down y hy)

/-- A node that was walked is settled for the edges after it. -/
theorem Settled.walked {e : E} {below : List (K × L)} {vis₁ : List K} {l₁ : L} (hac : N.Acyclic)
    (h : Settled N (e :: es) vis)
    (hdown : Walks N l₁ (N.next (N.dst e)) (N.dst e :: vis) below vis₁) : Settled N es vis₁ := by
  intro x hx hfrom y hy
  have hnode : ∀ y, Relation.ReflTransGen N.Edge (N.dst e) y → y ∈ vis₁ := by
    intro y hy
    rcases Relation.reflTransGen_iff_eq_or_transGen.1 hy with rfl | hy
    · exact hdown.mem_visited.2 (.inr List.mem_cons_self)
    · exact hdown.complete (h.open hac) y (.of_transGen hy)
  rcases hdown.mem_visited.1 hx with hx | hx
  · exact hnode y ((hdown.reaches x hx).transGen.to_reflTransGen.trans hy)
  · rcases List.mem_cons.1 hx with rfl | hx
    · exact hnode y hy
    · exact hdown.mem_visited.2 (.inr (List.mem_cons_of_mem _ (h x hx hfrom.tail y hy)))

/-- The label of a listed node is the one of the first path to it. -/
theorem Walks.first (h : Walks N l es vis new vis') (hac : N.Acyclic) (hset : Settled N es vis) :
    ∀ entry ∈ new, ∃ path, N.First es path entry.1 ∧ entry.2 = path.foldl N.step l := by
  induction h with
  | nil => exact fun entry h => absurd h List.not_mem_nil
  | @skip l e es vis vis' new hmem hrest ih =>
    intro entry hentry
    obtain ⟨path, hpath, hlabel⟩ := ih hset.tail entry hentry
    refine ⟨path, .next (fun hreach => ?_) hpath, hlabel⟩
    exact hrest.fresh _ (List.mem_map_of_mem hentry) (hset _ hmem (.of_head .refl) _ hreach)
  | @visit l e es vis vis₁ vis' below new he hdown hrest ih ih' =>
    intro entry hentry
    rcases List.mem_append.1 hentry with hbelow | hentry
    · obtain ⟨path, hpath, hlabel⟩ := ih (hset.open hac) entry hbelow
      refine ⟨e :: path, .down (fun heq => ?_) hpath, hlabel⟩
      exact hdown.fresh _ (List.mem_map_of_mem hbelow) (heq ▸ List.mem_cons_self)
    · rcases List.mem_cons.1 hentry with rfl | hnew
      · exact ⟨[e], .here e es, rfl⟩
      · obtain ⟨path, hpath, hlabel⟩ := ih' (hset.walked hac hdown) entry hnew
        refine ⟨path, .next (fun hreach => ?_) hpath, hlabel⟩
        refine hrest.fresh _ (List.mem_map_of_mem hnew) ?_
        rcases Relation.reflTransGen_iff_eq_or_transGen.1 hreach with heq | hreach
        · exact heq ▸ hdown.mem_visited.2 (.inr List.mem_cons_self)
        · exact hdown.complete (hset.open hac) _ (.of_transGen hreach)

/-- In the list `new`, behind `done`, the successors of a node stand before it. -/
def Sorted (N : Net K E L) (done new : List K) : Prop :=
  ∀ a k b, new = a ++ k :: b → ∀ k', N.Edge k k' → k' ∈ done ∨ k' ∈ a

theorem Sorted.append {done : List K} {k : K} {below new : List K} (h : Sorted N done below)
    (hk : ∀ k', N.Edge k k' → k' ∈ done ∨ k' ∈ below)
    (hnew : Sorted N (done ++ below ++ [k]) new) : Sorted N done (below ++ k :: new) := by
  intro a x b hsplit x' hedge
  rcases List.append_eq_append_iff.1 hsplit with ⟨c, rfl, hc⟩ | ⟨c, rfl, hc⟩
  · cases c with
    | nil =>
      simp only [List.nil_append, List.cons.injEq] at hc
      obtain ⟨rfl, rfl⟩ := hc
      simpa using hk x' hedge
    | cons y c =>
      simp only [List.cons_append, List.cons.injEq] at hc
      obtain ⟨rfl, rfl⟩ := hc
      have := hnew c x b rfl x' hedge
      simp only [List.mem_append, List.mem_cons, List.not_mem_nil, or_false] at this ⊢
      tauto
  · cases c with
    | nil =>
      simp only [List.nil_append, List.cons.injEq] at hc
      obtain ⟨rfl, rfl⟩ := hc
      simpa using hk x' hedge
    | cons y c =>
      simp only [List.cons_append, List.cons.injEq] at hc
      obtain ⟨rfl, rfl⟩ := hc
      exact h a x c rfl x' hedge

/-- Nodes are listed behind their successors, where those seen before are done. -/
theorem Walks.sorted (h : Walks N l es vis new vis') (hac : N.Acyclic) (done : List K)
    (hdone : ∀ x, N.From es x → x ∈ vis → x ∈ done) : Sorted N done (keys new) := by
  induction h generalizing done with
  | nil =>
    intro a k b hsplit
    simp at hsplit
  | skip _ _ ih => exact ih done fun x hx => hdone x hx.tail
  | @visit l e es vis vis₁ vis' below new he hdown hrest ih ih' =>
    simp only [keys, List.map_append, List.map_cons]
    have hbelow : Sorted N done (keys below) := by
      refine ih done fun x hx hvis => ?_
      rcases List.mem_cons.1 hvis with rfl | hvis
      · exact absurd hx.transGen (hac _)
      · exact hdone x hx.down hvis
    have hnode : ∀ k', N.Edge (N.dst e) k' → k' ∈ done ∨ k' ∈ keys below := by
      intro k' hedge
      obtain ⟨a, ha, rfl⟩ := hedge
      rcases hdown.mem_visited.1 (hdown.covers a ha) with hmem | hmem
      · exact .inr hmem
      · rcases List.mem_cons.1 hmem with heq | hmem
        · exact absurd (.single ⟨a, ha, heq⟩) (hac (N.dst e))
        · exact .inl (hdone _ (.of_head (.single ⟨a, ha, rfl⟩)) hmem)
    refine hbelow.append hnode (ih' _ fun x hx hvis => ?_)
    simp only [List.mem_append, List.mem_cons, List.not_mem_nil, or_false]
    rcases hdown.mem_visited.1 hvis with hvis | hvis
    · exact .inl (.inr hvis)
    · rcases List.mem_cons.1 hvis with rfl | hvis
      · exact .inr rfl
      · exact .inl (.inl (hdone x hx.tail hvis))

/-- Turned around, the list has behind a node everything the node leads to. -/
theorem Sorted.reverse {new : List K} (h : Sorted N [] new) {a b : List K} {k k' : K}
    (hsplit : new.reverse = a ++ k :: b) (hreach : Relation.TransGen N.Edge k k') : k' ∈ b := by
  have hnew : new = b.reverse ++ k :: a.reverse := by
    rw [← List.reverse_reverse new, hsplit]
    simp
  induction hreach with
  | single hedge => simpa using h _ k _ hnew _ hedge
  | @tail c d hc hedge ih =>
    obtain ⟨u, v, huv⟩ := List.append_of_mem (List.mem_reverse.2 ih)
    have := h u c (v ++ k :: a.reverse) (by rw [hnew, huv]; simp) d hedge
    simp only [List.not_mem_nil, false_or] at this
    exact List.mem_reverse.1 (huv ▸ List.mem_append_left _ this)

/-! ## The walk from a root -/

section

variable {root : K} {seen : List K}

/-- From a root on no cycle, the walk lists what the root leads to. -/
theorem Walks.mem_keys (h : Walks N l es [root] new seen) (hroot : ¬N.From es root) {k : K} :
    k ∈ keys new ↔ N.From es k := by
  refine ⟨h.reaches k, fun hk => ?_⟩
  have hset : Settled N es [root] := by
    intro x hx hfrom
    rw [List.mem_singleton.1 hx] at hfrom
    exact absurd hfrom hroot
  rcases h.mem_visited.1 (h.complete hset k hk) with hnew | hvis
  · exact hnew
  · rw [List.mem_singleton.1 hvis] at hk
    exact absurd hk hroot

end

end

end Spn.Lib.PostOrder
