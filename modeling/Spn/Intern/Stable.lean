import Spn.Lib.Decimal
import Spn.Intern.Table

/-! # Ids for good

The strings of a table by id, and runs of calls. While the number of slots fits a `u32`, a
call answers as a list of the strings in the order they first came would.
-/
namespace Spn.Intern

open Spn.Lib.Probing

/-- The slot of a string. -/
def entryOf (hash : Str → UInt32) (str : Str) (id : UInt32) : Slot :=
  ⟨hash str, str.length, id, some str⟩

def entriesOf (hash : Str → UInt32) (names : List Str) : List Slot :=
  names.zipIdx.map fun named => entryOf hash named.1 (UInt32.ofNat named.2)

/-- How many strings but the empty one a table takes. -/
def limit : ℕ := 805306368

/-- The table of the names, by id. -/
structure Table.Holds (hash : Str → UInt32) (table : Table) (k : ℕ) (names : List Str) : Prop where
  index : table.index.Holds k (entriesOf hash names)
  load : names.length * 4 ≤ 3 * 2 ^ k
  full : k = 31 → names.length = limit + 1
  first : [] ∈ names.head?
  distinct : names.Nodup
  byId : table.byId = names
  nextId : table.nextId = UInt32.ofNat names.length

section

variable {hash : Str → UInt32} {table : Table} {k : ℕ} {names : List Str} {str : Str}

theorem length_entriesOf (hash : Str → UInt32) (names : List Str) :
    (entriesOf hash names).length = names.length := by
  rw [entriesOf, List.length_map, List.length_zipIdx]

theorem mem_entriesOf {entry : Slot} : entry ∈ entriesOf hash names ↔
    ∃ str j, names[j]? = some str ∧ entry = entryOf hash str (UInt32.ofNat j) := by
  constructor
  · intro h
    obtain ⟨named, hmem, rfl⟩ := List.mem_map.1 h
    exact ⟨named.1, named.2, List.mem_zipIdx_iff_getElem?.1 hmem, rfl⟩
  · intro h
    obtain ⟨str, j, hget, rfl⟩ := h
    exact List.mem_map.2 ⟨(str, j), List.mem_zipIdx_iff_getElem?.2 hget, rfl⟩

theorem entriesOf_append (names : List Str) (str : Str) : entriesOf hash (names ++ [str]) =
    entriesOf hash names ++ [entryOf hash str (UInt32.ofNat names.length)] := by
  rw [entriesOf, List.zipIdx_append, List.map_append, Nat.zero_add]
  rfl

theorem agrees_entryOf {str' : Str} {id : UInt32} :
    Index.agrees str (hash str) (entryOf hash str' id) = true ↔ str' = str := by
  rw [Index.agrees, decide_eq_true_iff]
  constructor
  · intro h
    obtain ⟨-, hlen, htake⟩ := h
    have hall : str'.take str.length = str' := List.take_of_length_le hlen.le
    rw [← hall]
    exact htake
  · intro h
    rw [h]
    exact ⟨rfl, rfl, List.take_length⟩

theorem Table.Holds.room (h : table.Holds hash k names) :
    (entriesOf hash names).length < 2 ^ k := by
  have hload := h.load
  have hpos := Nat.two_pow_pos k
  rw [length_entriesOf]
  omega

/-- What a probe ends in. -/
theorem Table.Holds.find (h : table.Holds hash k names) (str : Str) :
    ∃ slot, table.index.find str (hash str) = some slot ∧ slot.toNat < 2 ^ k ∧
      ((∃ j, names[j]? = some str ∧
          table.index.cells slot.toNat = some (entryOf hash str (UInt32.ofNat j))) ∨
        (str ∉ names ∧ table.index.cells slot.toNat = none ∧
          Reached (2 ^ k) table.index.cells ((hash str).toNat % 2 ^ k) slot.toNat)) := by
  have hi := h.index
  obtain ⟨cell, hcell, hnone⟩ := hi.exists_free h.room
  have hseek := hi.findFrom_eq str (hash str) table.index.slots.length (hi.lt_size (hash str))
  obtain ⟨i, hlt, hends, hstop, hpass⟩ := @seek_ends _ _ _ _ _ (Index.agrees str (hash str))
    (hi.lt_size (hash str)) hcell (stops_of_free hnone)
  rw [hi.size, hends] at hseek
  obtain ⟨slot, hslot, hat⟩ := Option.map_eq_some_iff.1 hseek
  have hbelow : slot.toNat < 2 ^ k := by
    rw [hat]
    exact behind_lt (Nat.two_pow_pos k) _ _
  refine ⟨slot, by rw [Index.find, hi.size, hslot], hbelow, ?_⟩
  cases hget : table.index.cells slot.toNat with
  | some entry =>
    have hmem := hi.taken.mem_iff.1 (List.mem_filter.2
      ⟨List.mem_of_getElem? (Index.cells_eq_some.1 hget).1, (Index.cells_eq_some.1 hget).2⟩)
    obtain ⟨str', j, hj, rfl⟩ := mem_entriesOf.1 hmem
    rw [hat] at hget
    have heq := agrees_entryOf.1 (hstop _ hget)
    rw [heq] at hj
    exact .inl ⟨j, hj, by rw [heq]⟩
  | none =>
    refine .inr ⟨fun hmem => ?_, rfl, ?_⟩
    · obtain ⟨j, hj⟩ := List.mem_iff_getElem?.1 hmem
      have hentry := hi.taken.mem_iff.2 (mem_entriesOf.2 ⟨str, j, hj, rfl⟩)
      obtain ⟨hslots, htaken⟩ := List.mem_filter.1 hentry
      obtain ⟨cell', hcell', hget'⟩ := List.getElem_of_mem hslots
      rw [hat] at hget
      have hfalse := hi.packed.not_looked hget hpass
        (hi.size ▸ hcell') (Index.cells_eq_some.2
          ⟨by rw [List.getElem?_eq_getElem hcell', hget'], htaken⟩) (hi.toNat_mask _).symm
      rw [agrees_entryOf.2 rfl] at hfalse
      cases hfalse
    · rw [← hi.toNat_mask, hat]
      exact reached_of_pass hlt hpass

theorem Table.Holds.nil_mem (h : table.Holds hash k names) : [] ∈ names :=
  List.mem_of_mem_head? h.first

/-- A string that is in the table. -/
theorem Table.Holds.known (h : table.Holds hash k names) (hmem : str ∈ names) :
    getOrInsert hash table str = some (UInt32.ofNat (names.idxOf str), table) := by
  rw [getOrInsert]
  by_cases hne : str = []
  · obtain ⟨rest, hrest⟩ : ∃ rest, names = [] :: rest := List.head?_eq_some_iff.1 h.first
    rw [if_pos hne, hne, hrest, List.idxOf_cons_self]
    rfl
  · obtain ⟨slot, hfind, -, hends | hends⟩ := h.find str
    · obtain ⟨j, hj, hcell⟩ := hends
      obtain ⟨hget, htaken⟩ := Index.cells_eq_some.1 hcell
      obtain ⟨hlt, hat⟩ := List.getElem?_eq_some_iff.1 hj
      have hidx : names.idxOf str = j := by
        rw [← hat]
        exact h.distinct.idxOf_getElem j hlt
      simp only [if_neg hne, hfind, hget, htaken, hidx, Option.bind_eq_bind, Option.bind_some,
        if_true]
      rfl
    · exact absurd hmem hends.1

/-- A new string is put in a free slot that its home reaches. -/
theorem Table.Holds.put (h : table.Holds hash k names) (hnew : str ∉ names) :
    ∃ slot, slot.toNat < 2 ^ k ∧ table.index.cells slot.toNat = none ∧
      Reached (2 ^ k) table.index.cells ((hash str).toNat % 2 ^ k) slot.toNat ∧
      getOrInsert hash table str =
        (table.index.put (entryOf hash str table.nextId) slot).map fun index =>
          (table.nextId, ⟨index, table.byId ++ [str], table.nextId + 1⟩) := by
  have hne : str ≠ [] := fun hnil => hnew (hnil ▸ h.nil_mem)
  obtain ⟨slot, hfind, hslot, hends | hends⟩ := h.find str
  · obtain ⟨j, hj, -⟩ := hends
    exact absurd (List.mem_of_getElem? hj) hnew
  · obtain ⟨-, hcell, hreached⟩ := hends
    refine ⟨slot, hslot, hcell, hreached, ?_⟩
    have hin : slot.toNat < table.index.slots.length := h.index.size ▸ hslot
    have hget := List.getElem?_eq_getElem hin
    have hfree : table.index.slots[slot.toNat].taken = false := by
      by_contra htrue
      rw [Index.cells_eq_some.2 ⟨hget, eq_true_of_ne_false htrue⟩] at hcell
      cases hcell
    simp only [getOrInsert, if_neg hne, hfind, hget, hfree, Option.bind_eq_bind, Option.bind_some,
      Bool.false_eq_true, if_false]
    rw [Option.map_eq_bind]
    rfl

/-- The load is compared in 32 bits, which is enough for it below `2 ^ 31` slots. -/
theorem Index.Holds.put {index : Index} {entries : List Slot} (h : index.Holds k entries)
    (hk : k < 31) (hload : entries.length * 4 ≤ 3 * 2 ^ k) {entry : Slot}
    (htaken : entry.taken = true) {slot : UInt32} (hslot : slot.toNat < 2 ^ k)
    (hfree : index.cells slot.toNat = none)
    (hreached : Reached (2 ^ k) index.cells (entry.home (2 ^ k)) slot.toNat) :
    ∃ index' k', index.put entry slot = some index' ∧ index'.Holds k' (entry :: entries) ∧
      (entries.length + 1) * 4 ≤ 3 * 2 ^ k' ∧ (k' = 31 → entries.length + 1 = limit + 1) := by
  have hhigh : 2 ^ k ≤ 2 ^ 30 := Nat.pow_le_pow_right (by omega) (by omega)
  have hlow : 2 ^ 4 ≤ 2 ^ k := Nat.pow_le_pow_right (by omega) h.low
  have hcount : ((index.count + 1) * 4).toNat = (entries.length + 1) * 4 := by
    rw [UInt32.toNat_mul, UInt32.toNat_add, h.count]
    change (entries.length + 1) % 2 ^ 32 * 4 % 2 ^ 32 = _
    omega
  have hcapacity : (index.capacity * 3).toNat = 2 ^ k * 3 := by
    rw [UInt32.toNat_mul, h.capacity]
    change 2 ^ k * 3 % 2 ^ 32 = _
    omega
  have hcond : (index.count + 1) * 4 > index.capacity * 3 ↔
      2 ^ k * 3 < (entries.length + 1) * 4 := by
    rw [gt_iff_lt, UInt32.lt_iff_toNat_lt, hcount, hcapacity]
  rw [Index.put]
  split
  · rename_i hgrow
    rw [hcond] at hgrow
    have hsucc : 2 ^ (k + 1) = 2 * 2 ^ k := by rw [Nat.pow_succ, Nat.mul_comm]
    obtain ⟨grown, hgrown, hholds⟩ := h.grow hk (by omega)
    obtain ⟨index', hinsert, hholds'⟩ := hholds.insert htaken (by omega)
    refine ⟨index', k + 1, ?_, hholds', by omega, fun hk31 => ?_⟩
    · rw [hgrown]
      exact hinsert
    · have hk30 : k = 30 := by omega
      rw [hk30] at hgrow hload
      unfold limit
      omega
  · rename_i hfits
    rw [hcond] at hfits
    exact ⟨_, k, rfl, h.store htaken hslot hfree (by omega) hreached, by omega,
      fun hk31 => by omega⟩

/-- A string that is new. -/
theorem Table.Holds.fresh (h : table.Holds hash k names) (hnew : str ∉ names)
    (hlen : names.length ≤ limit) : ∃ table' k', getOrInsert hash table str =
      some (UInt32.ofNat names.length, table') ∧ table'.Holds hash k' (names ++ [str]) := by
  have hk : k < 31 := by
    have hhigh := h.index.high
    by_contra hge
    have hfull := h.full (by omega)
    omega
  obtain ⟨slot, hslot, hcell, hreached, hstep⟩ := h.put hnew
  have hload : (entriesOf hash names).length * 4 ≤ 3 * 2 ^ k := by
    rw [length_entriesOf]
    exact h.load
  have htaken : (entryOf hash str table.nextId).taken = true := rfl
  obtain ⟨index', k', hput, hholds, hload, hfull⟩ :=
    h.index.put hk hload htaken hslot hcell hreached
  rw [length_entriesOf] at hload hfull
  refine ⟨⟨index', table.byId ++ [str], table.nextId + 1⟩, k', ?_, ?_⟩
  · rw [hstep, hput, h.nextId]
    rfl
  · have hlength : (names ++ [str]).length = names.length + 1 := List.length_append
    refine ⟨hholds.perm ?_, by rw [hlength]; exact hload, by rw [hlength]; exact hfull,
      ?_, ?_, ?_, ?_⟩
    · rw [entriesOf_append, ← h.nextId]
      exact (List.perm_append_singleton _ _).symm
    · exact List.mem_head?_append_of_mem_head? h.first
    · exact h.distinct.append (List.nodup_singleton _) (List.disjoint_singleton.2 hnew)
    · rw [h.byId]
    · show table.nextId + 1 = _
      rw [h.nextId, hlength]
      exact (UInt32.ofNat_add _ _).symm

/-- There is no place for one string more. -/
theorem Table.Holds.none (h : table.Holds hash k names) (hnew : str ∉ names)
    (hlen : names.length = limit + 1) : getOrInsert hash table str = none := by
  have hload := h.load
  unfold limit at hlen
  have hk : k = 31 := by
    by_contra hne
    have hhigh := h.index.high
    have hpow : 2 ^ k ≤ 2 ^ 30 := Nat.pow_le_pow_right (by omega) (by omega)
    omega
  cases hk
  have hne : entriesOf hash names ≠ [] := by
    intro hnil
    have := length_entriesOf hash names
    rw [hnil, hlen] at this
    cases this
  obtain ⟨slot, -, -, -, hstep⟩ := h.put hnew
  have hcond : (table.index.count + 1) * 4 > table.index.capacity * 3 := by
    rw [gt_iff_lt, UInt32.lt_iff_toNat_lt, UInt32.toNat_mul, UInt32.toNat_mul, UInt32.toNat_add,
      h.index.count, h.index.capacity, length_entriesOf, hlen]
    decide
  rw [hstep, Index.put, if_pos hcond, h.index.grow_none hne]
  rfl

theorem holds_init (hash : Str → UInt32) :
    ∃ table, init hash = some table ∧ table.Holds hash 4 [[]] := by
  have hfresh :=
    Index.Holds.fresh (le_refl 4) (by omega) (show (16 : UInt32).toNat = 2 ^ 4 from rfl)
  have htaken : (entryOf hash [] 0).taken = true := rfl
  obtain ⟨index, hinsert, hholds⟩ := hfresh.insert htaken (by simp)
  refine ⟨⟨index, [[]], 1⟩, ?_, hholds, by simp, by omega, rfl, List.nodup_singleton _, rfl, rfl⟩
  rw [init]
  change (Index.insert ⟨List.replicate 16 .free, 0, 16⟩ (entryOf hash [] 0)).bind _ = _
  rw [show (⟨List.replicate 16 .free, 0, 16⟩ : Index).insert (entryOf hash [] 0) = some index
    from hinsert]
  rfl

end

/-! ## Runs -/

inductive Call
  | getOrInsert (str : Str)
  | strFromId (id : UInt32)

inductive Reply
  | id (id : UInt32)
  | str (str : Str)

def step (hash : Str → UInt32) (table : Table) : Call → Option (Reply × Table)
  | .getOrInsert str => (getOrInsert hash table str).map fun found => (.id found.1, found.2)
  | .strFromId id => some (.str (strFromId table id), table)

/-- Calls one after the other, with what they return. -/
def run (hash : Str → UInt32) : Table → List Call → Option (List Reply × Table)
  | table, [] => some ([], table)
  | table, call :: calls =>
    (step hash table call).bind fun done =>
      (run hash done.2 calls).map fun rest => (done.1 :: rest.1, rest.2)

/-- The names once a call was made. -/
def learn (names : List Str) : Call → List Str
  | .getOrInsert str => if str ∈ names then names else names ++ [str]
  | .strFromId _ => names

/-- What a list of the names answers. -/
def answer (names : List Str) : Call → Reply
  | .getOrInsert str => .id (UInt32.ofNat ((learn names (.getOrInsert str)).idxOf str))
  | .strFromId id => .str ((names[id.toNat]?).getD [])

section

variable {hash : Str → UInt32} {table : Table} {k : ℕ} {names : List Str}

theorem prefix_learn (names : List Str) (call : Call) : names <+: learn names call := by
  cases call with
  | strFromId id => exact List.prefix_rfl
  | getOrInsert str =>
    rw [learn]
    split
    · exact List.prefix_rfl
    · exact List.prefix_append _ _

theorem prefix_foldl_learn (names : List Str) (calls : List Call) :
    names <+: calls.foldl learn names := by
  induction calls generalizing names with
  | nil => exact List.prefix_rfl
  | cons call calls ih => exact (prefix_learn names call).trans (ih _)

theorem Table.Holds.step (h : table.Holds hash k names) (call : Call)
    (hlen : (learn names call).length ≤ limit + 1) : ∃ table' k',
      Intern.step hash table call = some (answer names call, table') ∧
      table'.Holds hash k' (learn names call) := by
  cases call with
  | strFromId id =>
    refine ⟨table, k, ?_, h⟩
    rw [Intern.step, strFromId, h.byId]
    rfl
  | getOrInsert str =>
    by_cases hmem : str ∈ names
    · refine ⟨table, k, ?_, by rwa [learn, if_pos hmem]⟩
      rw [Intern.step, h.known hmem, answer, learn, if_pos hmem]
      rfl
    · rw [learn, if_neg hmem, List.length_append] at hlen
      obtain ⟨table', k', hstep, hholds⟩ := h.fresh hmem (Nat.le_of_succ_le_succ hlen)
      refine ⟨table', k', ?_, by rwa [learn, if_neg hmem]⟩
      have hidx : (names ++ [str]).idxOf str = names.length := by
        rw [List.idxOf_append_of_notMem hmem, List.idxOf_cons_self]
        rfl
      rw [Intern.step, hstep, answer, learn, if_neg hmem, hidx]
      rfl

/-- A run answers as the list of the names does. -/
theorem Table.Holds.run (h : table.Holds hash k names) (calls : List Call)
    (hlen : (calls.foldl learn names).length ≤ limit + 1) : ∃ replies table' k',
      Intern.run hash table calls = some (replies, table') ∧
      table'.Holds hash k' (calls.foldl learn names) ∧ replies.length = calls.length ∧
      ∀ i call, calls[i]? = some call →
        replies[i]? = some (answer ((calls.take i).foldl learn names) call) := by
  induction calls generalizing table k names with
  | nil => exact ⟨[], table, k, rfl, h, rfl, fun i call hcall => by cases hcall⟩
  | cons call calls ih =>
    have hle := (prefix_foldl_learn (learn names call) calls).length_le
    obtain ⟨table₁, k₁, hstep, h₁⟩ := h.step call (hle.trans hlen)
    obtain ⟨replies, table', k', hrun, hholds, hlength, hreplies⟩ := ih h₁ hlen
    refine ⟨answer names call :: replies, table', k', ?_, hholds, congrArg (· + 1) hlength, ?_⟩
    · rw [Intern.run, hstep, Option.bind_some, hrun]
      rfl
    · intro i call' hcall
      cases i with
      | zero =>
        cases hcall
        rfl
      | succ i => exact hreplies i call' hcall

/-- A run that brings too many strings does not end well. -/
theorem Table.Holds.run_none (h : table.Holds hash k names) (hle : names.length ≤ limit + 1)
    (calls : List Call) (hlen : limit + 1 < (calls.foldl learn names).length) :
    Intern.run hash table calls = Option.none := by
  induction calls generalizing table k names with
  | nil => exact absurd hlen (Nat.not_lt.2 hle)
  | cons call calls ih =>
    by_cases hstep : (learn names call).length ≤ limit + 1
    · obtain ⟨table₁, k₁, hdone, h₁⟩ := h.step call hstep
      rw [Intern.run, hdone, Option.bind_some, ih h₁ hstep hlen]
      rfl
    · cases call with
      | strFromId id => exact absurd hle hstep
      | getOrInsert str =>
        rw [learn] at hstep
        split at hstep
        · exact absurd hle hstep
        · rename_i hnew
          rw [List.length_append] at hstep
          have hfull : names.length = limit + 1 := by
            change ¬names.length + 1 ≤ limit + 1 at hstep
            omega
          rw [Intern.run, Intern.step, h.none hnew hfull]
          rfl

theorem nodup_learned (h : names.Nodup) (calls : List Call) : (calls.foldl learn names).Nodup := by
  induction calls generalizing names with
  | nil => exact h
  | cons call calls ih =>
    refine ih ?_
    cases call with
    | strFromId id => exact h
    | getOrInsert str =>
      rw [learn]
      split
      · exact h
      · rename_i hnew
        exact h.append (List.nodup_singleton _) (List.disjoint_singleton.2 hnew)

/-- The string a call brings. -/
def Call.brings : Call → Option Str
  | .getOrInsert str => some str
  | .strFromId _ => none

theorem mem_learned {str : Str} {calls : List Call} : str ∈ calls.foldl learn names ↔
    str ∈ names ∨ str ∈ calls.filterMap Call.brings := by
  induction calls generalizing names with
  | nil => simp
  | cons call calls ih =>
    rw [List.foldl_cons, ih]
    cases call with
    | strFromId id => simp [learn, Call.brings]
    | getOrInsert str' =>
      have hlearn : str ∈ learn names (.getOrInsert str') ↔ str ∈ names ∨ str = str' := by
        rw [learn]
        split
        · rename_i hmem
          exact ⟨.inl, fun h => h.elim id fun heq => heq ▸ hmem⟩
        · rw [List.mem_append, List.mem_singleton]
      simp only [hlearn, List.filterMap_cons, Call.brings, List.mem_cons, or_assoc]

/-- How many strings but the empty one the calls bring. -/
def brought (calls : List Call) : ℕ := ((calls.filterMap Call.brings).toFinset.erase []).card

theorem length_learned (calls : List Call) :
    (calls.foldl learn [[]]).length = brought calls + 1 := by
  have hnodup := nodup_learned (List.nodup_singleton ([] : Str)) calls
  have hset : (calls.foldl learn [[]]).toFinset =
      insert [] ((calls.filterMap Call.brings).toFinset.erase []) := by
    ext str
    rw [List.mem_toFinset, mem_learned, List.mem_singleton, Finset.mem_insert, Finset.mem_erase,
      List.mem_toFinset]
    by_cases hnil : str = [] <;> simp [hnil]
  rw [← List.toFinset_card_of_nodup hnodup, hset,
    Finset.card_insert_of_notMem (Finset.notMem_erase _ _)]
  rfl

theorem idxOf_of_prefix {earlier later : List Str} (h : earlier <+: later) {str : Str}
    (hmem : str ∈ earlier) : earlier.idxOf str = later.idxOf str := by
  obtain ⟨rest, rfl⟩ := h
  exact (List.idxOf_append_of_mem hmem).symm

/-- Every call ends, ids tell the strings apart, a string comes back for its id, and no id
changes its string. -/
def Faithful (hash : Str → UInt32) (calls : List Call) : Prop :=
  ∃ table₀ replies table, init hash = some table₀ ∧
    run hash table₀ calls = some (replies, table) ∧ replies.length = calls.length ∧
    (∀ (i j : ℕ) (str str' : Str), calls[i]? = some (Call.getOrInsert str) →
      calls[j]? = some (Call.getOrInsert str') → (replies[i]? = replies[j]? ↔ str = str')) ∧
    (∀ (i j : ℕ) (str : Str) (id : UInt32), i < j → calls[i]? = some (Call.getOrInsert str) →
      replies[i]? = some (Reply.id id) → calls[j]? = some (Call.strFromId id) →
      replies[j]? = some (Reply.str str)) ∧
    ∀ before after, calls = before ++ after → ∃ replies₁ table₁,
      run hash table₀ before = some (replies₁, table₁) ∧ table₁.byId <+: table.byId

theorem faithful_of_le (hash : Str → UInt32) {calls : List Call} (h : brought calls ≤ limit) :
    Faithful hash calls := by
  obtain ⟨table₀, hinit, hholds₀⟩ := holds_init hash
  have hlen : (calls.foldl learn [[]]).length ≤ limit + 1 := by
    rw [length_learned]
    exact Nat.succ_le_succ h
  obtain ⟨replies, table, k, hrun, hholds, hlength, hreplies⟩ := hholds₀.run calls hlen
  have hbegins : ∀ {before after : List Call}, calls = before ++ after →
      before.foldl learn [[]] <+: calls.foldl learn [[]] := by
    intro before after hcalls
    rw [hcalls, List.foldl_append]
    exact prefix_foldl_learn _ _
  have hknown : ∀ {i : ℕ} {str : Str}, calls[i]? = some (Call.getOrInsert str) →
      str ∈ (calls.take (i + 1)).foldl learn [[]] := by
    intro i str hcall
    refine mem_learned.2 (.inr (List.mem_filterMap.2 ⟨Call.getOrInsert str, ?_, rfl⟩))
    rw [List.take_add_one, hcall]
    exact List.mem_append_right _ (List.mem_singleton.2 rfl)
  -- the id of a string is its place in the last list
  have hid : ∀ {i : ℕ} {str : Str}, calls[i]? = some (Call.getOrInsert str) → replies[i]? =
      some (Reply.id (UInt32.ofNat ((calls.foldl learn [[]]).idxOf str))) := by
    intro i str hcall
    have hmem := hknown hcall
    have heq := idxOf_of_prefix (hbegins (List.take_append_drop (i + 1) calls).symm) hmem
    rw [hreplies i _ hcall, answer, ← heq, List.take_add_one, hcall, List.foldl_append]
    rfl
  have hplace : ∀ {str : Str}, str ∈ calls.foldl learn [[]] →
      (UInt32.ofNat ((calls.foldl learn [[]]).idxOf str)).toNat =
        (calls.foldl learn [[]]).idxOf str := by
    intro str hmem
    have hlt := List.idxOf_lt_length_of_mem hmem
    unfold limit at hlen
    exact UInt32.toNat_ofNat_of_lt' (by simp [UInt32.size]; omega)
  have hall : ∀ {i : ℕ} {str : Str}, calls[i]? = some (Call.getOrInsert str) →
      str ∈ calls.foldl learn [[]] := by
    intro i str hcall
    exact (hbegins (List.take_append_drop (i + 1) calls).symm).subset (hknown hcall)
  refine ⟨table₀, replies, table, hinit, hrun, hlength, ?_, ?_, ?_⟩
  · intro i j str str' hi hj
    rw [hid hi, hid hj]
    constructor
    · intro heq
      have hids := congrArg UInt32.toNat (Reply.id.inj (Option.some.inj heq))
      rw [hplace (hall hi), hplace (hall hj)] at hids
      exact (List.idxOf_inj (hall hi)).1 hids
    · intro heq
      rw [heq]
  · intro i j str id hij hi hrep hj
    rw [hid hi] at hrep
    cases hrep
    rw [hreplies j _ hj, answer, hplace (hall hi)]
    have htake : calls.take j = calls.take (i + 1) ++ (calls.take j).drop (i + 1) := by
      conv_lhs => rw [← List.take_append_drop (i + 1) (calls.take j), List.take_take,
        Nat.min_eq_left hij]
    have hmem : str ∈ (calls.take j).foldl learn [[]] := by
      rw [htake, List.foldl_append]
      exact (prefix_foldl_learn _ _).subset (hknown hi)
    rw [← idxOf_of_prefix (hbegins (List.take_append_drop j calls).symm) hmem,
      List.getElem?_idxOf hmem]
    rfl
  · intro before after hcalls
    have hle := (hbegins hcalls).length_le
    obtain ⟨replies₁, table₁, k₁, hrun₁, hholds₁, -, -⟩ := hholds₀.run before (hle.trans hlen)
    refine ⟨replies₁, table₁, hrun₁, ?_⟩
    rw [hholds₁.byId, hholds.byId]
    exact hbegins hcalls

theorem not_faithful (hash : Str → UInt32) {calls : List Call} (h : limit < brought calls) :
    ¬ Faithful hash calls := by
  intro hfaithful
  obtain ⟨table₀, replies, table, hinit, hrun, -⟩ := hfaithful
  obtain ⟨table₁, hinit₁, hholds⟩ := holds_init hash
  rw [hinit₁] at hinit
  cases hinit
  rw [hholds.run_none (Nat.le_add_left 1 limit) calls
    (by rw [length_learned]; exact Nat.succ_lt_succ h)] at hrun
  cases hrun

/-- The table is faithful to the calls that bring no more strings than it takes. -/
theorem intern_faithful_iff (hash : Str → UInt32) (calls : List Call) :
    Faithful hash calls ↔ brought calls ≤ limit := by
  constructor
  · intro h
    by_contra hlt
    exact not_faithful hash (Nat.lt_of_not_le hlt) h
  · exact faithful_of_le hash

open Lib in
theorem brought_decimals (n : ℕ) :
    brought ((List.range n).map fun n => Call.getOrInsert (decimal n)) = n := by
  have hbrings : ((List.range n).map fun n => Call.getOrInsert (decimal n)).filterMap
      Call.brings = (List.range n).map decimal := by
    rw [List.filterMap_map]
    exact congrFun List.filterMap_eq_map _
  have hinj : Function.Injective decimal := Function.LeftInverse.injective numeral_decimal
  have hnil : [] ∉ ((List.range n).map decimal).toFinset := by
    intro hmem
    obtain ⟨n, -, hn⟩ := List.mem_map.1 (List.mem_toFinset.1 hmem)
    exact (digits_decimal n).1 hn
  rw [brought, hbrings, Finset.erase_eq_of_notMem hnil,
    List.toFinset_card_of_nodup (List.nodup_range.map hinj), List.length_map, List.length_range]

open Lib in
/-- One string more than the table takes. -/
theorem too_many_strings : ¬ Faithful (fun _ => 0)
    ((List.range 805306369).map fun n => Call.getOrInsert (decimal n)) := by
  refine not_faithful _ ?_
  have hbrought := brought_decimals 805306369
  unfold limit
  omega

end

end Spn.Intern
