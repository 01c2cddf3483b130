import Spn.Lib.Probing
import Spn.Paths

/-! # The intern table

`intern/intern.c`. Nothing is returned where the source would read or write beyond the slots,
or go round them without end. The length of a `sp_str_t` is a `u32`, as is the field that
keeps it.
-/
namespace Spn.Intern

open Spn.Lib.Probing

/-- `sp_intern_slot_t`; a free slot has no data. -/
structure Slot where
  hash : UInt32
  len : ℕ
  id : UInt32
  data : Option Str
  deriving DecidableEq

/-- `sp_zero`. -/
def Slot.free : Slot := ⟨0, 0, 0, none⟩

def Slot.taken (slot : Slot) : Bool := slot.data.isSome

/-- `sp_intern_index_t`. -/
structure Index where
  slots : List Slot
  count : UInt32
  capacity : UInt32

namespace Index

def mask (index : Index) : UInt32 := index.capacity - 1

/-- The comparison in `sp_intern_index_find`. -/
def agrees (str : Str) (hash : UInt32) (entry : Slot) : Bool :=
  entry.hash = hash ∧ entry.len = str.length ∧ (entry.data.getD []).take str.length = str

/-- The loop of `sp_intern_index_find`, cut after `fuel` slots. -/
def findFrom (index : Index) (str : Str) (hash : UInt32) : ℕ → UInt32 → Option UInt32
  | 0, _ => none
  | fuel + 1, slot =>
    match index.slots[slot.toNat]? with
    | none => none
    | some entry =>
      if entry.taken then
        if agrees str hash entry then some slot
        else index.findFrom str hash fuel ((slot + 1) &&& index.mask)
      else some slot

/-- `sp_intern_index_find`. -/
def find (index : Index) (str : Str) (hash : UInt32) : Option UInt32 :=
  index.findFrom str hash index.slots.length (hash &&& index.mask)

/-- The loop of `sp_intern_index_insert`. -/
def freeFrom (index : Index) : ℕ → UInt32 → Option UInt32
  | 0, _ => none
  | fuel + 1, slot =>
    match index.slots[slot.toNat]? with
    | none => none
    | some entry =>
      if entry.taken then index.freeFrom fuel ((slot + 1) &&& index.mask) else some slot

/-- `slots[slot] = entry; count += 1`. -/
def store (index : Index) (entry : Slot) (slot : UInt32) : Index :=
  { index with slots := index.slots.set slot.toNat entry, count := index.count + 1 }

/-- `sp_intern_index_insert`. -/
def insert (index : Index) (entry : Slot) : Option Index :=
  (index.freeFrom index.slots.length (entry.hash &&& index.mask)).map (index.store entry)

/-- `sp_intern_index_grow`. -/
def grow (index : Index) : Option Index :=
  let capacity := index.capacity * 2
  index.slots.foldlM (fun index entry => if entry.taken then index.insert entry else some index)
    ⟨List.replicate capacity.toNat .free, 0, capacity⟩

/-- `sp_intern_index_put`. -/
def put (index : Index) (entry : Slot) (slot : UInt32) : Option Index :=
  if (index.count + 1) * 4 > index.capacity * 3 then index.grow.bind fun index => index.insert entry
  else some (index.store entry slot)

end Index

/-- `sp_intern_t`. -/
structure Table where
  index : Index
  byId : List Str
  nextId : UInt32

section

variable (hash : Str → UInt32)

/-- `sp_intern_init_ex`. -/
def init : Option Table := do
  let index ← Index.insert ⟨List.replicate 16 .free, 0, 16⟩ ⟨hash [], 0, 0, some []⟩
  return ⟨index, [[]], 1⟩

/-- `sp_intern_get_or_insert`. -/
def getOrInsert (table : Table) (str : Str) : Option (UInt32 × Table) :=
  if str = [] then some (0, table)
  else do
    let slot ← table.index.find str (hash str)
    let entry ← table.index.slots[slot.toNat]?
    if entry.taken then return (entry.id, table)
    let index ← table.index.put ⟨hash str, str.length, table.nextId, some str⟩ slot
    return (table.nextId, ⟨index, table.byId ++ [str], table.nextId + 1⟩)

end

/-- `sp_intern_str_from_id`. -/
def strFromId (table : Table) (id : UInt32) : Str := (table.byId[id.toNat]?).getD []

/-! ## Tables of a power of two -/

/-- The slots as a table for the search. -/
def Index.cells (index : Index) (cell : ℕ) : Option Slot := (index.slots[cell]?).filter Slot.taken

/-- The cell a slot belongs in. -/
def Slot.home (n : ℕ) (slot : Slot) : ℕ := slot.hash.toNat % n

/-- The index holds the entries, each where it is found. -/
structure Index.Holds (index : Index) (k : ℕ) (entries : List Slot) : Prop where
  low : 4 ≤ k
  high : k < 32
  capacity : index.capacity.toNat = 2 ^ k
  size : index.slots.length = 2 ^ k
  packed : Packed (2 ^ k) index.cells (Slot.home (2 ^ k))
  taken : (index.slots.filter Slot.taken).Perm entries
  count : index.count.toNat = entries.length

section

variable {index : Index} {k : ℕ} {entries : List Slot}

theorem two_pow_lt_of_lt (h : k < 32) : 2 ^ k < 2 ^ 32 :=
  Nat.pow_lt_pow_right (by decide) h

theorem Index.Holds.toNat_mask (h : index.Holds k entries) (x : UInt32) :
    (x &&& index.mask).toNat = x.toNat % 2 ^ k := by
  have hpos : (1 : UInt32) ≤ index.capacity :=
    UInt32.le_iff_toNat_le.2 (h.capacity ▸ Nat.one_le_two_pow)
  rw [UInt32.toNat_and, mask, UInt32.toNat_sub_of_le _ _ hpos, h.capacity]
  exact Nat.and_two_pow_sub_one_eq_mod _ _

/-- One step of the search. -/
theorem Index.Holds.toNat_next (h : index.Holds k entries) (slot : UInt32) :
    ((slot + 1) &&& index.mask).toNat = (slot.toNat + 1) % 2 ^ k := by
  rw [h.toNat_mask, UInt32.toNat_add]
  exact Nat.mod_mod_of_dvd _ (Nat.pow_dvd_pow 2 h.high.le)

theorem Index.Holds.lt_size (h : index.Holds k entries) (x : UInt32) :
    (x &&& index.mask).toNat < 2 ^ k := by
  rw [h.toNat_mask]
  exact Nat.mod_lt _ (Nat.two_pow_pos k)

theorem Index.cells_eq_some {cell : ℕ} {entry : Slot} :
    index.cells cell = some entry ↔ index.slots[cell]? = some entry ∧ entry.taken = true := by
  rw [cells, Option.filter_eq_some_iff]

theorem Index.cells_of_free {cell : ℕ} {entry : Slot} (hslot : index.slots[cell]? = some entry)
    (hfree : entry.taken = false) : index.cells cell = none := by
  rw [cells, hslot]
  exact Option.filter_some_neg hfree

theorem Index.Holds.findFrom_eq (h : index.Holds k entries) (str : Str) (hash : UInt32)
    (fuel : ℕ) {slot : UInt32} (hslot : slot.toNat < 2 ^ k) :
    (index.findFrom str hash fuel slot).map UInt32.toNat =
      seek (2 ^ k) index.cells (agrees str hash) fuel slot.toNat := by
  induction fuel generalizing slot with
  | zero => rfl
  | succ fuel ih =>
    obtain ⟨entry, hentry⟩ : ∃ entry, index.slots[slot.toNat]? = some entry :=
      ⟨_, List.getElem?_eq_getElem (h.size ▸ hslot)⟩
    rw [findFrom, hentry, seek]
    cases htaken : entry.taken with
    | false => simp only [cells_of_free hentry htaken, htaken]; rfl
    | true =>
      simp only [cells_eq_some.2 ⟨hentry, htaken⟩, htaken, if_true]
      split
      · rfl
      · rw [ih (h.lt_size _), h.toNat_next]

theorem Index.Holds.freeFrom_eq (h : index.Holds k entries) (fuel : ℕ) {slot : UInt32}
    (hslot : slot.toNat < 2 ^ k) :
    (index.freeFrom fuel slot).map UInt32.toNat =
      seek (2 ^ k) index.cells (fun _ => false) fuel slot.toNat := by
  induction fuel generalizing slot with
  | zero => rfl
  | succ fuel ih =>
    obtain ⟨entry, hentry⟩ : ∃ entry, index.slots[slot.toNat]? = some entry :=
      ⟨_, List.getElem?_eq_getElem (h.size ▸ hslot)⟩
    rw [freeFrom, hentry, seek]
    cases htaken : entry.taken with
    | false => simp only [cells_of_free hentry htaken, htaken]; rfl
    | true =>
      simp only [cells_eq_some.2 ⟨hentry, htaken⟩, htaken, if_true, Bool.false_eq_true, if_false]
      rw [ih (h.lt_size _), h.toNat_next]

/-- Entries in another order are held as well. -/
theorem Index.Holds.perm (h : index.Holds k entries) {entries' : List Slot}
    (hperm : entries.Perm entries') : index.Holds k entries' where
  low := h.low
  high := h.high
  capacity := h.capacity
  size := h.size
  packed := h.packed
  taken := h.taken.trans hperm
  count := h.count.trans hperm.length_eq

theorem Index.Holds.exists_free (h : index.Holds k entries) (hroom : entries.length < 2 ^ k) :
    ∃ cell < 2 ^ k, index.cells cell = none := by
  have hlt : (index.slots.filter Slot.taken).length < index.slots.length := by
    rw [h.taken.length_eq, h.size]
    exact hroom
  obtain ⟨entry, hmem, hfree⟩ := List.length_filter_lt_length_iff_exists.1 hlt
  obtain ⟨cell, hcell, hentry⟩ := List.getElem_of_mem hmem
  have hget : index.slots[cell]? = some entry := by rw [List.getElem?_eq_getElem hcell, hentry]
  exact ⟨cell, h.size ▸ hcell, Index.cells_of_free hget (eq_false_of_ne_true hfree)⟩

theorem perm_filter_set {l : List Slot} {cell : ℕ} {old entry : Slot} (hold : l[cell]? = some old)
    (hfree : old.taken = false) (htaken : entry.taken = true) :
    ((l.set cell entry).filter Slot.taken).Perm (entry :: l.filter Slot.taken) := by
  obtain ⟨hcell, hget⟩ := List.getElem?_eq_some_iff.1 hold
  have hl : l.filter Slot.taken =
      (l.take cell).filter Slot.taken ++ (l.drop (cell + 1)).filter Slot.taken := by
    conv_lhs => rw [← List.take_append_drop cell l, List.drop_eq_getElem_cons hcell, hget]
    rw [List.filter_append, List.filter_cons_of_neg (by rw [hfree]; exact Bool.false_ne_true)]
  rw [hl, List.set_eq_take_append_cons_drop, if_pos hcell, List.filter_append,
    List.filter_cons_of_pos htaken]
  exact List.perm_middle

theorem Index.cells_store {slot : UInt32} {entry : Slot} (hslot : slot.toNat < index.slots.length)
    (htaken : entry.taken = true) :
    (index.store entry slot).cells = Function.update index.cells slot.toNat (some entry) := by
  funext cell
  by_cases heq : cell = slot.toNat
  · rw [heq, Function.update_self, cells_eq_some]
    exact ⟨List.getElem?_set_self hslot, htaken⟩
  · rw [Function.update_of_ne heq, cells, cells]
    exact congrArg _ (List.getElem?_set_ne (Ne.symm heq))

/-- An entry that is stored in a free slot that its home reaches. -/
theorem Index.Holds.store (h : index.Holds k entries) {entry : Slot} {slot : UInt32}
    (htaken : entry.taken = true) (hslot : slot.toNat < 2 ^ k)
    (hfree : index.cells slot.toNat = none) (hroom : entries.length < 2 ^ k)
    (hreached : Reached (2 ^ k) index.cells (entry.home (2 ^ k)) slot.toNat) :
    (index.store entry slot).Holds k (entry :: entries) where
  low := h.low
  high := h.high
  capacity := h.capacity
  size := by
    rw [Index.store, List.length_set]
    exact h.size
  packed := by
    rw [cells_store (h.size ▸ hslot) htaken]
    exact h.packed.update hreached
  taken := by
    have hin : slot.toNat < index.slots.length := h.size ▸ hslot
    have hget := List.getElem?_eq_getElem hin
    have hold : index.slots[slot.toNat].taken = false := by
      by_contra htrue
      rw [cells_eq_some.2 ⟨hget, eq_true_of_ne_false htrue⟩] at hfree
      cases hfree
    exact (perm_filter_set hget hold htaken).trans (h.taken.cons entry)
  count := by
    have hlt := two_pow_lt_of_lt h.high
    rw [Index.store, UInt32.toNat_add, h.count, UInt32.toNat_one, List.length_cons]
    exact Nat.mod_eq_of_lt (by omega)

/-- The search for a free slot ends, and the entry is held. -/
theorem Index.Holds.insert (h : index.Holds k entries) {entry : Slot} (htaken : entry.taken = true)
    (hroom : entries.length < 2 ^ k) :
    ∃ index', index.insert entry = some index' ∧ index'.Holds k (entry :: entries) := by
  obtain ⟨cell, hcell, hnone⟩ := h.exists_free hroom
  have hhome : (entry.hash &&& index.mask).toNat = entry.home (2 ^ k) := h.toNat_mask _
  have hseek := h.freeFrom_eq index.slots.length (h.lt_size entry.hash)
  obtain ⟨i, hi, hends, hstop, hpass⟩ :=
    @seek_ends _ _ _ _ _ (fun _ => false) (h.lt_size entry.hash) hcell (stops_of_free hnone)
  rw [h.size, hends] at hseek
  obtain ⟨slot, hslot, hat⟩ := Option.map_eq_some_iff.1 hseek
  refine ⟨index.store entry slot, ?_, ?_⟩
  · rw [Index.insert, h.size, hslot]
    rfl
  · refine h.store htaken ?_ ?_ hroom ?_
    · rw [hat]
      exact behind_lt (Nat.two_pow_pos k) _ _
    · rw [hat]
      cases hget : index.cells (behind (2 ^ k) (entry.hash &&& index.mask).toNat i) with
      | none => rfl
      | some a => cases hstop a hget
    · rw [← hhome, hat]
      exact reached_of_pass hi hpass

/-- A table without entries. -/
theorem Index.Holds.fresh (hlow : 4 ≤ k) (hhigh : k < 32) {capacity : UInt32}
    (hcapacity : capacity.toNat = 2 ^ k) :
    (⟨List.replicate capacity.toNat .free, 0, capacity⟩ : Index).Holds k [] where
  low := hlow
  high := hhigh
  capacity := hcapacity
  size := by rw [List.length_replicate, hcapacity]
  packed := by
    have hcells : (⟨List.replicate capacity.toNat .free, 0, capacity⟩ : Index).cells =
        fun _ => none := by
      funext cell
      refine Option.eq_none_iff_forall_ne_some.2 fun entry hentry => ?_
      obtain ⟨hget, htaken⟩ := cells_eq_some.1 hentry
      rw [List.eq_of_mem_replicate (List.mem_of_getElem? hget)] at htaken
      cases htaken
    rw [hcells]
    exact packed_free _ _
  taken := by
    rw [List.filter_eq_nil_iff.2 fun entry hentry => ?_]
    rw [List.eq_of_mem_replicate hentry]
    exact Bool.false_ne_true
  count := rfl

/-- The loop of `sp_intern_index_grow` over the old slots. -/
theorem Index.Holds.refill {old : List Slot} (h : index.Holds k entries)
    (hroom : (old.filter Slot.taken).length + entries.length < 2 ^ k) :
    ∃ index', old.foldlM (fun index entry =>
        if entry.taken then index.insert entry else some index) index = some index' ∧
      index'.Holds k ((old.filter Slot.taken).reverse ++ entries) := by
  induction old generalizing index entries with
  | nil => exact ⟨index, rfl, h⟩
  | cons entry old ih =>
    cases htaken : entry.taken with
    | false =>
      rw [List.filter_cons_of_neg (by rw [htaken]; exact Bool.false_ne_true)] at hroom ⊢
      obtain ⟨index', hfold, hholds⟩ := ih h hroom
      refine ⟨index', ?_, hholds⟩
      rw [List.foldlM_cons, htaken]
      exact hfold
    | true =>
      rw [List.filter_cons_of_pos htaken, List.length_cons] at hroom
      obtain ⟨index₁, hinsert, hholds₁⟩ := h.insert htaken (by omega)
      obtain ⟨index', hfold, hholds⟩ := ih hholds₁ (by rw [List.length_cons]; omega)
      refine ⟨index', ?_, ?_⟩
      · rw [List.foldlM_cons, htaken, if_pos rfl, hinsert]
        exact hfold
      · rw [List.filter_cons_of_pos htaken, List.reverse_cons, List.append_assoc]
        exact hholds

/-- Below `2 ^ 31` slots the table grows. -/
theorem Index.Holds.grow (h : index.Holds k entries) (hk : k < 31)
    (hroom : entries.length < 2 ^ (k + 1)) :
    ∃ index', index.grow = some index' ∧ index'.Holds (k + 1) entries := by
  have hcapacity : (index.capacity * 2).toNat = 2 ^ (k + 1) := by
    have hlt : 2 ^ (k + 1) < 2 ^ 32 := two_pow_lt_of_lt (by omega)
    rw [UInt32.toNat_mul, h.capacity, Nat.pow_succ] at *
    exact Nat.mod_eq_of_lt hlt
  have hfresh := Index.Holds.fresh (by have := h.low; omega) (by omega) hcapacity
  have hfits : (index.slots.filter Slot.taken).length + ([] : List Slot).length < 2 ^ (k + 1) := by
    rw [h.taken.length_eq]
    exact hroom
  obtain ⟨index', hfold, hholds⟩ := hfresh.refill hfits
  refine ⟨index', hfold, hholds.perm ?_⟩
  rw [List.append_nil]
  exact (List.reverse_perm _).trans h.taken

/-- The number of slots doubles to a `u32` of zero. -/
theorem Index.Holds.grow_none (h : index.Holds 31 entries) (hne : entries ≠ []) :
    index.grow = none := by
  have hzero : index.capacity * 2 = 0 := by
    refine UInt32.toNat_inj.1 ?_
    rw [UInt32.toNat_mul, h.capacity]
    rfl
  have hnone : ∀ old : List Slot, (∃ entry ∈ old, entry.taken = true) →
      old.foldlM (fun index entry => if entry.taken then index.insert entry else some index)
        (⟨[], 0, 0⟩ : Index) = none := by
    intro old hold
    induction old with
    | nil => obtain ⟨entry, hentry, -⟩ := hold; cases hentry
    | cons entry old ih =>
      rw [List.foldlM_cons]
      cases htaken : entry.taken with
      | true => rfl
      | false =>
        refine ih ?_
        obtain ⟨other, hother, hyes⟩ := hold
        obtain rfl | hmem := List.mem_cons.1 hother
        · rw [htaken] at hyes
          cases hyes
        · exact ⟨other, hmem, hyes⟩
  obtain ⟨entry, hentry⟩ := List.exists_mem_of_ne_nil _ hne
  have hmem := h.taken.mem_iff.2 hentry
  have h := hnone index.slots ⟨entry, List.mem_filter.1 hmem⟩
  rw [Index.grow, hzero]
  exact h

end

end Spn.Intern
