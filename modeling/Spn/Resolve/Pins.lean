import Spn.Resolve.Answers
import Spn.Resolve.Scopes

/-! # Solving a scope under pins

`attempt_reqs` and the walk over the pins. Whichever way a scope ends with OK,
its names and its boundaries are those of one successful search, kept or
captured, and the invariant of the search stands.
-/
namespace Spn.Resolve

open Spn.Lib

/-- The second state has the names and the boundaries of the first; the rest may
have grown. -/
structure Search.Undone (s s' : Search) : Prop where
  grows : s.Extends s'
  named : s'.named = s.named
  boundaries : s'.boundaries = s.boundaries
  visited : s'.visited = s.visited

namespace Search.Undone

theorem refl (s : Search) : s.Undone s := ⟨.refl s, rfl, rfl, rfl⟩

theorem trans {a b c : Search} (hab : a.Undone b) (hbc : b.Undone c) : a.Undone c :=
  ⟨hab.grows.trans hbc.grows, hbc.named.trans hab.named, hbc.boundaries.trans hab.boundaries,
    hbc.visited.trans hab.visited⟩

theorem inv {R : Resolver} {c : Ledger} {s s' : Search} (h : s.Undone s') (hs : s.Inv R c) :
    s'.Inv R c :=
  hs.later h.grows h.named h.boundaries h.visited

/-- What a search that grew can be cut back to. -/
theorem restore {s s' : Search} (he : s.Extends s') (hv : s'.visited = s.visited) :
    s.Undone (s'.restore s) := by
  obtain ⟨hn, hb⟩ := restore_of_extends he
  exact ⟨⟨fun k n h => hn ▸ h, by rw [hb], he.registry, he.met, he.picks⟩, hn, hb, hv⟩

end Search.Undone

/-- The invariant stands and the plain requests are answered. -/
structure Solves (R : Resolver) (c : Ledger) (reqs : List Req) (s : Search) : Prop where
  inv : s.Inv R c
  answered : ∀ req ∈ reqs, req.plain = true → Satisfied R c s rootNode req .scope

theorem Solves.later {R : Resolver} {c : Ledger} {reqs : List Req} {s s' : Search}
    (h : Solves R c reqs s) (hu : s.Undone s') : Solves R c reqs s' where
  inv := hu.inv h.inv
  answered req hreq hplain := by
    obtain ⟨hans, hfin⟩ := h.answered req hreq hplain
    exact ⟨hu.grows.answered hans, fun hs => h.inv.finished_mono hu.grows (hfin hs)⟩

/-- Written back into `s`, the witness gives the names and the boundaries of
`solved`, and `s` has gone on from there. -/
structure Witness.Restores (w : Witness) (s solved : Search) : Prop where
  holds : ∀ (name : Str) (node : ResolvedPkg), s.named[name]? = some node →
    solved.named[name]? = some node
  named : (s.adopt w).named = solved.named
  boundaries : (s.adopt w).boundaries = solved.boundaries
  visited : s.visited = solved.visited
  registry : solved.registry.Extends s.registry
  met : solved.met <+: s.met
  picks : solved.picks ≤ s.picks

/-- The witness brings back a search that solved the requests. -/
def Feasible (R : Resolver) (c : Ledger) (reqs : List Req) (s : Search) (w : Witness) : Prop :=
  ∃ solved, Solves R c reqs solved ∧ w.Restores s solved

namespace Feasible

variable {R : Resolver} {c : Ledger} {reqs : List Req} {s s' : Search} {w : Witness}

theorem later (h : Feasible R c reqs s w) (hu : s.Undone s') : Feasible R c reqs s' w := by
  obtain ⟨solved, hsolved, hw⟩ := h
  refine ⟨solved, hsolved, fun k n held => hw.holds k n (hu.named ▸ held), ?_, ?_,
    hu.visited.trans hw.visited, hw.registry.trans hu.grows.registry,
    hw.met.trans hu.grows.met, hw.picks.trans hu.grows.picks⟩
  · simpa only [Search.adopt, hu.named] using hw.named
  · simpa only [Search.adopt, hu.boundaries] using hw.boundaries

/-- Adopting a witness solves the scope. -/
theorem adopt (h : Feasible R c reqs s w) :
    s.Extends (s.adopt w) ∧ Solves R c reqs (s.adopt w) := by
  obtain ⟨solved, hsolved, hw⟩ := h
  have hgrows : s.Extends (s.adopt w) :=
    ⟨fun k n held => hw.named ▸ hw.holds k n held, List.prefix_append _ _, .refl _,
      List.prefix_refl _, le_refl _⟩
  refine ⟨hgrows, hsolved.later ⟨⟨fun k n held => hw.named ▸ held, ?_, hw.registry, hw.met,
    hw.picks⟩, hw.named, hw.boundaries, hw.visited⟩⟩
  rw [hw.boundaries]

end Feasible

/-- What a search added, written back in any order. -/
theorem adopt_captured {s solved : Search} (he : s.Extends solved)
    {list : List (Str × ResolvedPkg) → List (Str × ResolvedPkg)}
    (hlist : ∀ entries, (list entries).Perm entries) :
    let w : Witness :=
      { vals := (list solved.named.toList).filter fun entry => !s.named.contains entry.1
        boundaries := solved.boundaries.drop s.boundaries.length }
    ((solved.restore s).adopt w).named = solved.named ∧
      ((solved.restore s).adopt w).boundaries = solved.boundaries := by
  intro w
  obtain ⟨hn, hb⟩ := restore_of_extends he
  have hmem : ∀ k n, (k, n) ∈ w.vals ↔ solved.named[k]? = some n ∧ s.named[k]? = none := by
    intro k n
    rw [List.mem_filter, (hlist _).mem_iff, Table.mem_toList_iff, Bool.not_eq_true',
      ← Bool.not_eq_true, Std.ExtTreeMap.contains_iff_mem, getElem?_eq_none_iff]
  have hdistinct : w.vals.Pairwise fun a b => a.1 ≠ b.1 :=
    (((hlist _).pairwise_iff (fun h => h.symm)).2 solved.named.toList_distinct).filter _
  constructor
  · refine Std.ExtTreeMap.ext_getElem? fun k => Option.ext fun n => ?_
    show (w.vals.foldl (fun t entry => t.insert entry.1 entry.2) (solved.restore s).named)[k]? =
      some n ↔ _
    rw [Table.getElem?_foldl_insert hdistinct, hn, hmem]
    constructor
    · rintro (⟨h, -⟩ | ⟨-, h⟩)
      · exact h
      · exact he.named k n h
    · intro h
      cases hk : s.named[k]? with
      | none => exact .inl ⟨h, rfl⟩
      | some m =>
        have hmn : m = n := by
          have := he.named k m hk
          rw [h] at this
          exact (Option.some.inj this).symm
        refine .inr ⟨fun v hv => ?_, by rw [hmn]⟩
        have := ((hmem k v).1 hv).2
        rw [hk] at this
        cases this
  · show (solved.restore s).boundaries ++ solved.boundaries.drop s.boundaries.length =
      solved.boundaries
    rw [hb]
    obtain ⟨tail, htail⟩ := he.boundaries
    rw [← htail]
    simp

section

variable {R : Resolver} {c : Ledger} {reqs : List Req} {depth : ℕ}
  {list : List (Str × ResolvedPkg) → List (Str × ResolvedPkg)}

/-- An attempt that is kept solves the scope. -/
theorem attemptReqs_kept {holds : Holds} {s s₁ : Search} {found : Option Witness} (hs : s.Inv R c)
    (hreqs : ∀ req ∈ reqs, req ∈ c.asked)
    (h : attemptReqs R holds depth list true reqs s = (.ok, s₁, found)) :
    s.Extends s₁ ∧ s₁.visited = s.visited ∧ Solves R c reqs s₁ := by
  obtain ⟨hgrows, hsolves⟩ := solveReqs_sound R holds depth hs hreqs
  unfold attemptReqs at h
  rcases hres : solveReqs R holds depth reqs s with ⟨verdict, s₂⟩
  rw [hres] at hgrows hsolves h
  cases verdict with
  | err e => cases h
  | stuck => cases h
  | ok =>
    cases h
    obtain ⟨he, hv⟩ := hgrows Verdict.noConfusion
    obtain ⟨hinv, hans⟩ := hsolves rfl
    exact ⟨he, hv, hinv, hans⟩

/-- An attempt that failed is undone. -/
theorem attemptReqs_failed {holds : Holds} {keep : Bool} {s s₁ : Search} {found : Option Witness}
    (hs : s.Inv R c) (hreqs : ∀ req ∈ reqs, req ∈ c.asked) {e : Err}
    (h : attemptReqs R holds depth list keep reqs s = (.err e, s₁, found)) : s.Undone s₁ := by
  obtain ⟨hgrows, -⟩ := solveReqs_sound R holds depth hs hreqs
  unfold attemptReqs at h
  rcases hres : solveReqs R holds depth reqs s with ⟨verdict, s₂⟩
  rw [hres] at hgrows h
  cases verdict with
  | ok => cases keep <;> cases h
  | stuck => cases h
  | err e =>
    cases h
    obtain ⟨he, hv⟩ := hgrows Verdict.noConfusion
    exact .restore he hv

/-- An attempt that is not kept is undone, and its assignment captured. -/
theorem attemptReqs_captured {holds : Holds} {s s₁ : Search} {found : Option Witness}
    (hs : s.Inv R c) (hreqs : ∀ req ∈ reqs, req ∈ c.asked)
    (hlist : ∀ entries, (list entries).Perm entries)
    (h : attemptReqs R holds depth list false reqs s = (.ok, s₁, found)) :
    s.Undone s₁ ∧ ∃ w, found = some w ∧ Feasible R c reqs s₁ w := by
  obtain ⟨hgrows, hsolves⟩ := solveReqs_sound R holds depth hs hreqs
  unfold attemptReqs at h
  rcases hres : solveReqs R holds depth reqs s with ⟨verdict, s₂⟩
  rw [hres] at hgrows hsolves h
  cases verdict with
  | err e => cases h
  | stuck => cases h
  | ok =>
    cases h
    obtain ⟨he, hv⟩ := hgrows Verdict.noConfusion
    obtain ⟨hinv, hans⟩ := hsolves rfl
    obtain ⟨hn, hb⟩ := adopt_captured he hlist
    have hu : s.Undone (s₂.restore s) := .restore he hv
    exact ⟨hu, _, rfl, s₂, ⟨hinv, hans⟩, fun k n held => he.named k n (hu.named ▸ held), hn, hb,
      rfl, .refl _, List.prefix_refl _, le_refl _⟩

/-- The walk over the pins: the scope is as it was, and the witness is good. -/
theorem walkPins_sound {L : Listing} {it : ℕ} {forced : Option Pin}
    (hreqs : ∀ req ∈ reqs, req ∈ c.asked) :
    ∀ {pins kept : List Pin} {witness : Option Witness} {s : Search}, s.Inv R c →
      (∀ w ∈ witness, Feasible R c reqs s w) →
      (walkPins R L it forced depth reqs pins kept witness s).1 = .ok →
        s.Undone (walkPins R L it forced depth reqs pins kept witness s).2.1 ∧
        ∀ w ∈ (walkPins R L it forced depth reqs pins kept witness s).2.2.2,
          Feasible R c reqs (walkPins R L it forced depth reqs pins kept witness s).2.1 w := by
  intro pins
  induction pins with
  | nil =>
    intro kept witness s _ hw _
    exact ⟨.refl s, hw⟩
  | cons pin rest ih =>
    intro kept witness s hs hw hok
    unfold walkPins at hok ⊢
    rcases hres : attemptReqs R ⟨forced, kept ++ [pin]⟩ depth (L.named (.witness it s.picks)) false
      reqs s with ⟨verdict, s₁, found⟩
    rw [hres] at hok
    cases verdict with
    | stuck => cases hok
    | ok =>
      obtain ⟨hu, w, hfound, hfeasible⟩ := attemptReqs_captured hs hreqs (L.named_perm _) hres
      have hw₁ : ∀ w' ∈ found, Feasible R c reqs s₁ w' := by
        intro w' hw'
        rw [show found = some w from hfound] at hw'
        cases hw'
        exact hfeasible
      obtain ⟨hu₂, hw₂⟩ := ih (hu.inv hs) hw₁ hok
      exact ⟨hu.trans hu₂, hw₂⟩
    | err e =>
      have hu := attemptReqs_failed hs hreqs hres
      simp only at hok ⊢
      split
      case isTrue hfatal =>
        rw [if_pos hfatal] at hok
        cases hok
      case isFalse hfatal =>
        rw [if_neg hfatal] at hok
        obtain ⟨hu₂, hw₂⟩ := ih (hu.inv hs) (fun w hw' => (hw w hw').later hu) hok
        exact ⟨hu.trans hu₂, hw₂⟩

/-- A scope solved under pins. -/
theorem resolvePinned_sound {L : Listing} {it : ℕ} {forced : Option Pin}
    (hreqs : ∀ req ∈ reqs, req ∈ c.asked) {pins kept : List Pin} {s : Search} (hs : s.Inv R c)
    (hok : (resolvePinned R L it forced depth reqs pins kept s).1 = .ok) :
    s.Extends (resolvePinned R L it forced depth reqs pins kept s).2.1 ∧
      (resolvePinned R L it forced depth reqs pins kept s).2.1.visited = s.visited ∧
      Solves R c reqs (resolvePinned R L it forced depth reqs pins kept s).2.1 := by
  unfold resolvePinned at hok ⊢
  rcases hres : attemptReqs R ⟨forced, kept ++ pins⟩ depth (L.named (.witness it s.picks)) true
    reqs s with ⟨verdict, s₁, found⟩
  rw [hres] at hok
  cases verdict with
  | stuck => cases hok
  | ok => exact attemptReqs_kept hs hreqs hres
  | err e =>
    have hu := attemptReqs_failed hs hreqs hres
    simp only at hok ⊢
    split
    case isTrue hfatal =>
      rw [if_pos hfatal] at hok
      cases hok
    case isFalse hfatal =>
      rw [if_neg hfatal] at hok
      have hnone : ∀ w ∈ (none : Option Witness), Feasible R c reqs s₁ w := by simp
      have hwalk : (walkPins R L it forced depth reqs pins [] none s₁).1 = .ok → _ :=
        walkPins_sound hreqs (hu.inv hs) hnone
      rcases hwres : walkPins R L it forced depth reqs pins [] none s₁ with ⟨verdict, s₂, kept₂, w⟩
      rw [hwres] at hwalk hok
      cases verdict with
      | err e => cases hok
      | stuck => cases hok
      | ok =>
        obtain ⟨hu₂, hw⟩ := hwalk rfl
        have hu' := hu.trans hu₂
        cases w with
        | none =>
          obtain ⟨hgrows, hsolves⟩ :=
            solveReqs_sound R ⟨forced, kept₂⟩ depth (hu'.inv hs) hreqs
          obtain ⟨hinv, hans⟩ := hsolves hok
          obtain ⟨he, hv⟩ := hgrows (fun h => by cases hok.symm.trans h)
          exact ⟨hu'.grows.trans he, hv.trans hu'.visited, hinv, hans⟩
        | some w =>
          obtain ⟨hgrows, hsolves⟩ := (hw w rfl).adopt
          exact ⟨hu'.grows.trans hgrows, hu'.visited, hsolves⟩

end

end Spn.Resolve
