import Mathlib

/-! # Tables

A hash table of the source is a map from keys to values; what order it lists
its entries in is nobody's promise. Two tables are equal when they answer every
key alike, so a result that is the same table for every listing order does not
depend on that order.
-/
namespace Spn.Lib

/-- A finite map, equal to another when it answers every key alike. -/
abbrev Table (K V : Type) [Ord K] := Std.ExtTreeMap K V compare

namespace Table

variable {K V : Type} [Ord K] [Std.TransOrd K] [Std.LawfulEqOrd K]

theorem getElem?_insert_self (t : Table K V) (k : K) (v : V) : (t.insert k v)[k]? = some v := by
  simp

theorem getElem?_insert_of_ne (t : Table K V) {k a : K} (h : a ≠ k) (v : V) :
    (t.insert k v)[a]? = t[a]? := by
  rw [Std.ExtTreeMap.getElem?_insert, if_neg]
  intro heq
  exact h (Std.LawfulEqOrd.eq_of_compare heq).symm

theorem getElem?_insert_eq_some (t : Table K V) {k a : K} {v w : V} :
    (t.insert k v)[a]? = some w ↔ a = k ∧ v = w ∨ a ≠ k ∧ t[a]? = some w := by
  by_cases h : a = k
  · subst h
    simp
  · simp [getElem?_insert_of_ne t h, h]

theorem mem_toList_iff (t : Table K V) {k : K} {v : V} : (k, v) ∈ t.toList ↔ t[k]? = some v :=
  Std.ExtTreeMap.mem_toList_iff_getElem?_eq_some

/-- No two entries of a table have one key. -/
theorem toList_distinct (t : Table K V) : t.toList.Pairwise fun a b => a.1 ≠ b.1 := by
  refine t.distinct_keys_toList.imp ?_
  intro a b h heq
  exact h (by rw [heq]; exact Std.ReflCmp.compare_self)

/-- The entries of `t` whose key `held` has. -/
def restrict {W : Type} (t : Table K V) (held : Table K W) : Table K V :=
  t.filter fun k _ => held.contains k

theorem getElem?_restrict {W : Type} (t : Table K V) (held : Table K W) (k : K) :
    (t.restrict held)[k]? = if k ∈ held then t[k]? else none := by
  rw [restrict, Std.ExtTreeMap.getElem?_filter']
  by_cases h : k ∈ held
  · have hc : held.contains k = true := by simpa using h
    cases t[k]? <;> simp [h, hc, Option.filter]
  · have hc : held.contains k = false := by
      rw [← Bool.not_eq_true, Std.ExtTreeMap.contains_iff_mem]
      exact h
    cases t[k]? <;> simp [h, hc, Option.filter]

/-- Writing entries of distinct keys into a table: the order does not matter to
what it answers. -/
theorem getElem?_foldl_insert {l : List (K × V)} (hl : l.Pairwise fun a b => a.1 ≠ b.1)
    (t : Table K V) (k : K) (w : V) :
    (l.foldl (fun t entry => t.insert entry.1 entry.2) t)[k]? = some w ↔
      (k, w) ∈ l ∨ (∀ v, (k, v) ∉ l) ∧ t[k]? = some w := by
  induction l generalizing t with
  | nil => simp
  | cons entry rest ih =>
    obtain ⟨a, v⟩ := entry
    obtain ⟨hne, hrest⟩ := List.pairwise_cons.1 hl
    rw [List.foldl_cons, ih hrest, getElem?_insert_eq_some]
    have hno : ∀ x, (a, x) ∉ rest := fun x hx => hne _ hx rfl
    by_cases hk : k = a
    · subst hk
      simp [hno, eq_comm]
    · simp [hk]

/-- A table is what its entries make. -/
theorem foldl_insert_toList (t : Table K V) :
    t.toList.foldl (fun t entry => t.insert entry.1 entry.2) ∅ = t := by
  refine Std.ExtTreeMap.ext_getElem? fun k => Option.ext fun v => ?_
  rw [getElem?_foldl_insert t.toList_distinct, t.mem_toList_iff]
  simp

/-- The keys of a table, each once. -/
theorem toList_keys_nodup (t : Table K V) : (t.toList.map Prod.fst).Nodup :=
  List.pairwise_map.2 t.toList_distinct

theorem mem_keys_iff (t : Table K V) {k : K} :
    k ∈ t.toList.map Prod.fst ↔ ∃ v, t[k]? = some v := by
  simp only [List.mem_map, Prod.exists, exists_and_right, exists_eq_right, mem_toList_iff]

/-- A table that answers more keys is no smaller. -/
theorem size_le_size {W : Type} {t : Table K V} {t' : Table K W}
    (h : ∀ (k : K) (v : V), t[k]? = some v → ∃ w, t'[k]? = some w) : t.size ≤ t'.size := by
  have hsubset : t.toList.map Prod.fst ⊆ t'.toList.map Prod.fst := by
    intro k hk
    obtain ⟨v, hv⟩ := t.mem_keys_iff.1 hk
    exact t'.mem_keys_iff.2 (h k v hv)
  have hle := (t.toList_keys_nodup.subperm hsubset).length_le
  rwa [List.length_map, List.length_map, Std.ExtTreeMap.length_toList,
    Std.ExtTreeMap.length_toList] at hle

/-- One that answers a key more is larger. -/
theorem size_lt_size {W : Type} {t : Table K V} {t' : Table K W}
    (h : ∀ (k : K) (v : V), t[k]? = some v → ∃ w, t'[k]? = some w) {a : K} (ha : t[a]? = none)
    {w : W} (ha' : t'[a]? = some w) : t.size < t'.size := by
  have hnew : a ∉ t.toList.map Prod.fst := by
    intro hmem
    obtain ⟨v, hv⟩ := t.mem_keys_iff.1 hmem
    rw [ha] at hv
    cases hv
  have hsubset : a :: t.toList.map Prod.fst ⊆ t'.toList.map Prod.fst := by
    intro k hk
    rcases List.mem_cons.1 hk with rfl | hk
    · exact t'.mem_keys_iff.2 ⟨w, ha'⟩
    · obtain ⟨v, hv⟩ := t.mem_keys_iff.1 hk
      exact t'.mem_keys_iff.2 (h k v hv)
  have hle := ((List.nodup_cons.2 ⟨hnew, t.toList_keys_nodup⟩).subperm hsubset).length_le
  rw [List.length_cons, List.length_map, List.length_map, Std.ExtTreeMap.length_toList,
    Std.ExtTreeMap.length_toList] at hle
  exact hle

/-- The keys bound the size. -/
theorem size_le_card [DecidableEq K] {t : Table K V} {U : Finset K}
    (h : ∀ (k : K) (v : V), t[k]? = some v → k ∈ U) : t.size ≤ U.card := by
  rw [← Std.ExtTreeMap.length_toList, ← List.length_map Prod.fst,
    ← List.toFinset_card_of_nodup t.toList_keys_nodup]
  refine Finset.card_le_card fun k hk => ?_
  obtain ⟨v, hv⟩ := t.mem_keys_iff.1 (List.mem_toFinset.1 hk)
  exact h k v hv

end Table

end Spn.Lib
