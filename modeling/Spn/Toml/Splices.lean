import Spn.Toml.Ranges

/-! # Splices

Whatever is set, and in whatever order, the splices that are recorded can be applied: none begins
inside of another. Two of them conflict when they overlap, and `spn_toml_edit_splice` refuses that;
an insertion where a value starts would be rendered after the value is gone, but nothing is ever
inserted there.
-/
namespace Spn.Toml

variable {lo hi p : ℕ} {x y entry : Entry} {entries : List Entry} {sections : List Section}
  {edit edit' : Edit}

/-- An entry among others, or in an inline table among them. -/
inductive Among (x : Entry) : List Entry → Prop
  | here {rest : List Entry} : Among x (x :: rest)
  | later {entry : Entry} {rest : List Entry} : Among x rest → Among x (entry :: rest)
  | inside {entry : Entry} {rest : List Entry} : Among x entry.entries → Among x (entry :: rest)

theorem Among.trans (h : Among x entries) (hy : Among y x.entries) : Among y entries := by
  induction h with
  | here => exact .inside hy
  | later _ ih => exact .later ih
  | inside _ ih => exact .inside ih

/-! ## Places -/

theorem Entry.Within.bounds (h : entry.Within lo hi) :
    lo ≤ entry.key.start ∧ entry.key.start < entry.value.start ∧
      entry.value.start < entry.value.stop ∧ entry.value.stop ≤ hi := by
  cases entry with
  | mk path kind key value lineEnd entries =>
    obtain ⟨hstart, hkey, hgap, hvalue, hstop, -⟩ := h
    exact ⟨hstart, Nat.lt_trans hkey hgap, hvalue, hstop⟩

theorem Entry.Within.inside (h : entry.Within lo hi) :
    InOrder (entry.value.start + 1) (entry.value.stop - 1) entry.entries := by
  cases entry with
  | mk path kind key value lineEnd entries => exact h.2.2.2.2.2

theorem Among.within (hx : Among x entries) (h : InOrder lo hi entries) : x.Within lo hi := by
  induction hx generalizing lo hi with
  | here => exact h.1
  | later _ ih => exact (ih h.2).mono h.1.lt_stop.le le_rfl
  | inside _ ih =>
    have hbounds := h.1.bounds
    exact (ih h.1.inside).mono (by omega) (by omega)

/-- No key starts where a value does. -/
theorem Among.key_ne_value (hx : Among x entries) (hy : Among y entries)
    (h : InOrder lo hi entries) : y.key.start ≠ x.value.start := by
  induction hx generalizing lo hi with
  | @here rest =>
    have hbounds := h.1.bounds
    cases hy with
    | here => omega
    | later hy =>
      have := (hy.within h.2).bounds
      omega
    | inside hy =>
      have := (hy.within h.1.inside).bounds
      omega
  | later hx ih =>
    have hbounds := h.1.bounds
    have hxbounds := (hx.within h.2).bounds
    cases hy with
    | here => omega
    | later hy => exact ih hy h.2
    | inside hy =>
      have := (hy.within h.1.inside).bounds
      omega
  | inside hx ih =>
    have hbounds := h.1.bounds
    have hxbounds := (hx.within h.1.inside).bounds
    cases hy with
    | here => omega
    | later hy =>
      have := (hy.within h.2).bounds
      omega
    | inside hy => exact ih hy h.1.inside

theorem Lines.le (h : Lines lo hi entries) : lo ≤ hi := by
  induction entries generalizing lo with
  | nil => exact h
  | cons entry rest ih =>
    have := h.1.bounds
    have := ih h.2
    omega

theorem Lines.inOrder (h : Lines lo hi entries) : InOrder lo hi entries := by
  induction entries generalizing lo with
  | nil => trivial
  | cons entry rest ih =>
    exact ⟨h.1.mono le_rfl h.2.le, (ih h.2).mono h.1.stop_le le_rfl⟩

theorem Lines.lineEnd_mem (h : Lines lo hi entries) (hmem : entry ∈ entries) :
    lo ≤ entry.lineEnd ∧ entry.lineEnd ≤ hi := by
  induction entries generalizing lo with
  | nil => cases hmem
  | cons first rest ih =>
    have hbounds := h.1.bounds
    have hle := h.2.le
    rcases List.mem_cons.1 hmem with rfl | hmem
    · omega
    · have := ih h.2 hmem
      omega

/-- No line ends where a value starts. -/
theorem Lines.lineEnd_ne_value (h : Lines lo hi entries) (hmem : entry ∈ entries)
    (hx : Among x entries) : entry.lineEnd ≠ x.value.start := by
  induction entries generalizing lo with
  | nil => cases hmem
  | cons first rest ih =>
    have hle : first.lineEnd ≤ entry.lineEnd := by
      rcases List.mem_cons.1 hmem with rfl | hmem
      · exact le_rfl
      · exact (h.2.lineEnd_mem hmem).1
    have hbounds := h.1.bounds
    cases hx with
    | here => omega
    | inside hx =>
      have := (hx.within h.1.inside).bounds
      omega
    | later hx =>
      have hxbounds := (hx.within h.2.inOrder).bounds
      rcases List.mem_cons.1 hmem with rfl | hmem
      · omega
      · exact ih h.2 hmem hx

/-- A place in a section where text is inserted: where its content begins, where a line ends, and
where a key starts. -/
inductive Section.Opens (s : Section) : ℕ → Prop
  | content : Opens s s.content
  | line {entry : Entry} : entry ∈ s.entries → Opens s entry.lineEnd
  | key {y : Entry} : Among y s.entries → Opens s y.key.start

theorem Section.Opens.bounds {s : Section} (hp : s.Opens p) (h : Lines s.content hi s.entries) :
    s.content ≤ p ∧ p ≤ hi := by
  cases hp with
  | content => exact ⟨le_rfl, h.le⟩
  | line hmem => exact h.lineEnd_mem hmem
  | key hy =>
    have := (hy.within h.inOrder).bounds
    omega

theorem Section.Opens.ne_value {s : Section} (hp : s.Opens p) (h : Lines s.content hi s.entries)
    (hx : Among x s.entries) : p ≠ x.value.start := by
  cases hp with
  | content =>
    have := (hx.within h.inOrder).bounds
    omega
  | line hmem => exact h.lineEnd_ne_value hmem hx
  | key hy => exact hx.key_ne_value hy h.inOrder

theorem Laid.le (h : Laid lo hi sections) : lo ≤ hi := by
  induction sections generalizing lo with
  | nil => exact h
  | cons s rest ih =>
    obtain ⟨hcontent, stop, hlines, hrest⟩ := h
    exact hcontent.trans (hlines.le.trans (ih hrest))

theorem Laid.opens {s : Section} (h : Laid lo hi sections) (hs : s ∈ sections) (hp : s.Opens p) :
    lo ≤ p ∧ p ≤ hi := by
  induction sections generalizing lo with
  | nil => cases hs
  | cons first rest ih =>
    obtain ⟨hcontent, stop, hlines, hrest⟩ := h
    have hstop := hlines.le
    rcases List.mem_cons.1 hs with rfl | hs
    · have := hp.bounds hlines
      have := hrest.le
      omega
    · have := ih hrest hs
      omega

theorem Laid.value {s : Section} (h : Laid lo hi sections) (hs : s ∈ sections)
    (hx : Among x s.entries) :
    lo < x.value.start ∧ x.value.start < x.value.stop ∧ x.value.stop ≤ hi := by
  induction sections generalizing lo with
  | nil => cases hs
  | cons first rest ih =>
    obtain ⟨hcontent, stop, hlines, hrest⟩ := h
    have hstop := hlines.le
    rcases List.mem_cons.1 hs with rfl | hs
    · have := (hx.within hlines.inOrder).bounds
      have := hrest.le
      omega
    · have := ih hrest hs
      omega

/-- Nothing is inserted where a value starts. -/
theorem Laid.opens_ne_value {s t : Section} (h : Laid lo hi sections) (hs : s ∈ sections)
    (hp : s.Opens p) (ht : t ∈ sections) (hx : Among x t.entries) : p ≠ x.value.start := by
  induction sections generalizing lo with
  | nil => cases hs
  | cons first rest ih =>
    obtain ⟨hcontent, stop, hlines, hrest⟩ := h
    rcases List.mem_cons.1 hs with rfl | hsRest
    · rcases List.mem_cons.1 ht with rfl | htRest
      · exact hp.ne_value hlines hx
      · have := hp.bounds hlines
        have := hrest.value htRest hx
        omega
    · rcases List.mem_cons.1 ht with rfl | htRest
      · have := hrest.opens hsRest hp
        have := (hx.within hlines.inOrder).bounds
        omega
      · exact ih hrest hsRest htRest

/-! ## What a call records -/

/-- A value of the text. -/
def Edit.Values (edit : Edit) (x : Entry) : Prop := ∃ s ∈ edit.sections, Among x s.entries

/-- A place where text is inserted. -/
def Edit.Opens (edit : Edit) (p : ℕ) : Prop :=
  p = edit.source.length ∨ ∃ s ∈ edit.sections, s.Opens p

/-- What a splice may be for: a value is replaced, or text is inserted. -/
def Edit.Takes (edit : Edit) (start remove : ℕ) : Prop :=
  (∃ x, edit.Values x ∧ start = x.value.start ∧ remove = x.value.stop - x.value.start) ∨
    (edit.Opens start ∧ remove = 0)

theorem findIn_among (n : ℕ) : ∀ entries path, sizeOf entries ≤ n →
    findIn path entries = some x → Among x entries := by
  induction n with
  | zero =>
    intro entries path hsize
    cases entries with
    | nil => simp at hsize
    | cons entry rest => simp at hsize
  | succ n ih =>
    intro entries path hsize h
    cases entries with
    | nil => cases h
    | cons entry rest =>
      rw [findIn] at h
      rcases Option.or_eq_some_iff.1 h with hentry | ⟨-, hrest⟩
      · cases entry with
        | mk own kind key value lineEnd entries =>
          rw [Entry.find] at hentry
          split_ifs at hentry with hprefix hlength htable
          · obtain rfl := Option.some.inj hentry
            exact .here
          · refine .inside (ih entries _ ?_ hentry)
            simp only [List.cons.sizeOf_spec, Entry.mk.sizeOf_spec] at hsize
            omega
      · refine .later (ih rest _ ?_ hrest)
        simp only [List.cons.sizeOf_spec] at hsize
        omega

theorem foldl_find (path : List Str) (sections : List Section) (found : Option Entry)
    (h : sections.foldl (fun found s => (s.find path).or found) found = some x) :
    found = some x ∨ ∃ s ∈ sections, s.find path = some x := by
  induction sections generalizing found with
  | nil => exact .inl h
  | cons s rest ih =>
    rcases ih _ h with hfirst | ⟨t, ht, hfind⟩
    · rcases Option.or_eq_some_iff.1 hfirst with hs | ⟨-, hfound⟩
      · exact .inr ⟨s, List.mem_cons_self, hs⟩
      · exact .inl hfound
    · exact .inr ⟨t, List.mem_cons_of_mem s ht, hfind⟩

theorem find_values {path : List Str} (h : edit.find path = some x) : edit.Values x := by
  rcases foldl_find path _ _ h with hnone | ⟨s, hs, hfind⟩
  · cases hnone
  · rw [Section.find] at hfind
    split_ifs at hfind
    exact ⟨s, hs, findIn_among _ _ _ le_rfl hfind⟩

theorem container_values {path : List Str} {n len : ℕ}
    (h : edit.container path n = some (len, x)) : edit.Values x := by
  induction n with
  | zero => cases h
  | succ n ih =>
    rw [Edit.container] at h
    split at h
    · rename_i found hfind
      obtain ⟨-, rfl⟩ := Prod.mk.inj (Option.some.inj h)
      exact find_values hfind
    · exact ih h

theorem site_opens {s : Section} {parent : List Str} {site : Site}
    (h : s.site parent = some site) : s.Opens site.start := by
  rw [Section.site] at h
  dsimp only at h
  split_ifs at h with harray hrest
  · obtain rfl := Option.some.inj h
    cases hlast : s.entries.getLast? with
    | none => exact .content
    | some entry => exact .line (List.mem_of_getLast? hlast)
  · obtain ⟨entry, hentry, rfl⟩ := Option.map_eq_some_iff.1 h
    exact .line (List.mem_reverse.1 (List.mem_of_find?_eq_some hentry))

theorem foldl_site (parent : List Str) (sections : List Section) (found : Option Site)
    (site : Site) (h : sections.foldl (fun found s =>
      match s.site parent, found with
      | none, found => found
      | some site, none => some site
      | some site, some best => if site.matched < best.matched then some best else some site)
      found = some site) :
    found = some site ∨ ∃ s ∈ sections, s.site parent = some site := by
  induction sections generalizing found with
  | nil => exact .inl h
  | cons s rest ih =>
    rcases ih _ h with hfirst | ⟨t, ht, hsite⟩
    · cases hs : s.site parent with
      | none =>
        simp only [hs] at hfirst
        exact .inl hfirst
      | some other =>
        cases found with
        | none =>
          simp only [hs] at hfirst
          exact .inr ⟨s, List.mem_cons_self, hs.trans hfirst⟩
        | some best =>
          simp only [hs] at hfirst
          split_ifs at hfirst
          · exact .inl hfirst
          · exact .inr ⟨s, List.mem_cons_self, hs.trans hfirst⟩
    · exact .inr ⟨t, List.mem_cons_of_mem s ht, hsite⟩

theorem findSite_opens {parent : List Str} {site : Site} (h : edit.findSite parent = some site) :
    edit.Opens site.start := by
  rcases foldl_site parent _ _ _ h with hnone | ⟨s, hs, hsite⟩
  · cases hnone
  · exact .inr ⟨s, hs, site_opens hsite⟩

theorem setInline_takes {path : List Str} {len : ℕ} {value : Str} (hx : edit.Values x)
    (h : edit.setInline path len x value = some edit') :
    ∃ start remove insert, edit.splice start remove insert = some edit' ∧
      edit.Takes start remove := by
  rw [Edit.setInline] at h
  split at h
  · exact ⟨_, _, _, h, .inl ⟨x, hx, rfl, rfl⟩⟩
  · rename_i first rest hkind hentries
    obtain ⟨s, hs, hamong⟩ := hx
    refine ⟨_, _, _, h, .inr ⟨.inr ⟨s, hs, .key (hamong.trans ?_)⟩, rfl⟩⟩
    rw [hentries]
    exact .here
  · cases h

/-- A call that succeeds has recorded one splice. -/
theorem setStr_takes {path : List Str} {value : Str} (h : edit.setStr path value = some edit') :
    ∃ start remove insert, edit.splice start remove insert = some edit' ∧
      edit.Takes start remove := by
  rw [Edit.setStr] at h
  split_ifs at h with hpath
  split at h
  · rename_i entry hfind
    exact ⟨_, _, _, h, .inl ⟨entry, find_values hfind, rfl, rfl⟩⟩
  · split at h
    · rename_i len container hcontainer
      exact setInline_takes (container_values hcontainer) h
    · split at h
      · rename_i site hsite
        exact ⟨_, _, _, h, .inr ⟨findSite_opens hsite, rfl⟩⟩
      · rw [Edit.setSection] at h
        split_ifs at h
        exact ⟨_, _, _, h, .inr ⟨.inl rfl, rfl⟩⟩

/-! ## Any number of calls -/

/-- The edit after some calls of `spn_toml_edit_set_str`: one that fails leaves it as it is. -/
def Edit.sets (edit : Edit) (calls : List (List Str × Str)) : Edit :=
  calls.foldl (fun edit call => (edit.setStr call.1 call.2).getD edit) edit

/-- Two splices that go together. -/
def Splice.Beside (a b : Splice) : Prop :=
  a.seq ≠ b.seq ∧ Splice.conflicts a.start a.remove b = false

/-- What holds of the splices that are recorded. -/
structure Edit.Recorded (edit : Edit) : Prop where
  laid : Laid 0 edit.source.length edit.sections
  takes : ∀ s ∈ edit.splices, edit.Takes s.start s.remove
  seq : ∀ s ∈ edit.splices, s.seq < edit.splices.length
  beside : edit.splices.Pairwise Splice.Beside

theorem conflicts_comm (a b : Splice) :
    Splice.conflicts a.start a.remove b = Splice.conflicts b.start b.remove a := by
  by_cases ha : a.remove = 0 <;> by_cases hb : b.remove = 0 <;>
    simp [Splice.conflicts, ha, hb, Bool.and_comm]

theorem Splice.Beside.symm {a b : Splice} (h : a.Beside b) : b.Beside a :=
  ⟨h.1.symm, (conflicts_comm b a).trans h.2⟩

theorem Edit.Recorded.splice {start remove : ℕ} {insert : Str} (h : edit.Recorded)
    (htakes : edit.Takes start remove) (hsplice : edit.splice start remove insert = some edit') :
    edit'.Recorded ∧ edit'.source = edit.source ∧ edit'.sections = edit.sections := by
  rw [Edit.splice] at hsplice
  split_ifs at hsplice with hany
  obtain rfl := Option.some.inj hsplice
  rw [Bool.not_eq_true, List.any_eq_false] at hany
  refine ⟨⟨h.laid, fun s hs => ?_, fun s hs => ?_, ?_⟩, rfl, rfl⟩
  · rcases List.mem_append.1 hs with hs | hs
    · exact h.takes s hs
    · obtain rfl := List.mem_singleton.1 hs
      exact htakes
  · rw [List.length_append, List.length_singleton]
    rcases List.mem_append.1 hs with hs | hs
    · exact Nat.lt_succ_of_lt (h.seq s hs)
    · obtain rfl := List.mem_singleton.1 hs
      exact Nat.lt_succ_self _
  · rw [List.pairwise_append]
    refine ⟨h.beside, List.pairwise_singleton _ _, fun s hs t ht => ?_⟩
    obtain rfl := List.mem_singleton.1 ht
    refine ⟨(h.seq s hs).ne, ?_⟩
    rw [conflicts_comm]
    simpa using hany s hs

theorem Edit.Recorded.sets (h : edit.Recorded) (calls : List (List Str × Str)) :
    (edit.sets calls).Recorded ∧ (edit.sets calls).source = edit.source := by
  induction calls generalizing edit with
  | nil => exact ⟨h, rfl⟩
  | cons call rest ih =>
    cases hset : edit.setStr call.1 call.2 with
    | none =>
      have hsets : edit.sets (call :: rest) = edit.sets rest := by
        rw [Edit.sets, List.foldl_cons, hset]
        rfl
      rw [hsets]
      exact ih h
    | some next =>
      have hsets : edit.sets (call :: rest) = next.sets rest := by
        rw [Edit.sets, List.foldl_cons, hset]
        rfl
      obtain ⟨start, remove, insert, hsplice, htakes⟩ := setStr_takes hset
      obtain ⟨hnext, hsource, -⟩ := h.splice htakes hsplice
      rw [hsets, ← hsource]
      exact ih hnext

/-! ## Rendering -/

/-- Text that is kept, and what is written for the text that is removed after it. -/
structure Piece where
  kept : Str
  removed : Str
  insert : Str

/-- The offsets of the removed parts, when the first piece begins at this one. -/
def Piece.starts : ℕ → List Piece → List ℕ
  | _, [] => []
  | offset, p :: rest =>
    (offset + p.kept.length) :: starts (offset + p.kept.length + p.removed.length) rest

/-- The text is the source from this offset on with each of the splices, in their order, in the
place where it starts and of as much as it removes. -/
def Spliced (source : Str) (offset : ℕ) (splices : List Splice) (text : Str) : Prop :=
  ∃ (pieces : List Piece) (last : Str),
    source.drop offset = (pieces.flatMap fun p => p.kept ++ p.removed) ++ last ∧
    text = (pieces.flatMap fun p => p.kept ++ p.insert) ++ last ∧
    Piece.starts offset pieces = splices.map Splice.start ∧
    pieces.map (fun p => (p.removed.length, p.insert)) = splices.map fun s => (s.remove, s.insert)

/-- The order of splices: where they start, and of two that start at one place the one that was
recorded first. -/
def Splice.Precedes (a b : Splice) : Prop := a.start < b.start ∨ a.start = b.start ∧ a.seq < b.seq

theorem Edit.Takes.bounds {start remove : ℕ} (h : edit.Takes start remove)
    (hlaid : Laid 0 edit.source.length edit.sections) : start + remove ≤ edit.source.length := by
  rcases h with ⟨x, ⟨s, hs, hx⟩, rfl, rfl⟩ | ⟨rfl | ⟨s, hs, hopens⟩, rfl⟩
  · have := hlaid.value hs hx
    omega
  · exact le_rfl
  · exact (hlaid.opens hs hopens).2

theorem Edit.Takes.opens {start : ℕ} (h : edit.Takes start 0)
    (hlaid : Laid 0 edit.source.length edit.sections) : edit.Opens start := by
  rcases h with ⟨x, ⟨s, hs, hx⟩, -, hremove⟩ | ⟨hopens, -⟩
  · have := hlaid.value hs hx
    omega
  · exact hopens

theorem Edit.Values.ne_opens (hx : edit.Values x) (hp : edit.Opens p)
    (hlaid : Laid 0 edit.source.length edit.sections) : p ≠ x.value.start := by
  obtain ⟨t, ht, hx⟩ := hx
  rcases hp with rfl | ⟨s, hs, hopens⟩
  · have := hlaid.value ht hx
    omega
  · exact hlaid.opens_ne_value hs hopens ht hx

/-- Of two splices in order the first ends before the second starts: two that overlap conflict, and
where text is inserted no value starts. -/
theorem Edit.Recorded.ends_before (h : edit.Recorded) {a b : Splice} (ha : a ∈ edit.splices)
    (hb : b ∈ edit.splices) (hbeside : a.Beside b) (hbefore : Splice.before a b = true) :
    a.start + a.remove ≤ b.start := by
  have hstart : a.start ≤ b.start := by
    simp only [Splice.before, Bool.or_eq_true, Bool.and_eq_true, decide_eq_true_iff] at hbefore
    omega
  have hconflict := hbeside.2
  by_contra hlt
  have hremove : a.remove ≠ 0 := by omega
  by_cases hinsert : b.remove = 0
  · have hsame : a.start = b.start := by
      simp [Splice.conflicts, hremove, hinsert] at hconflict
      omega
    have hopens := (hinsert ▸ h.takes b hb).opens h.laid
    rcases h.takes a ha with ⟨x, hx, hvalue, -⟩ | ⟨-, hzero⟩
    · exact hx.ne_opens hopens h.laid (hsame ▸ hvalue)
    · exact hremove hzero
  · simp [Splice.conflicts, hremove, hinsert] at hconflict
    omega

theorem renderFrom_spliced {source : Str} {cursor : ℕ} {splices : List Splice}
    (hcursor : ∀ s ∈ splices, cursor ≤ s.start)
    (hends : splices.Pairwise fun a b => a.start + a.remove ≤ b.start)
    (hbounds : ∀ s ∈ splices, s.start + s.remove ≤ source.length) :
    ∃ text, renderFrom source cursor splices = some text ∧ Spliced source cursor splices text := by
  induction splices generalizing cursor with
  | nil => exact ⟨_, rfl, [], source.drop cursor, rfl, rfl, rfl, rfl⟩
  | cons s rest ih =>
    have hs := hcursor s List.mem_cons_self
    have hstop := hbounds s List.mem_cons_self
    obtain ⟨hfirst, hrest⟩ := List.pairwise_cons.1 hends
    obtain ⟨text, hrender, pieces, last, hsource, rfl, hstarts, hmap⟩ := ih hfirst hrest
      fun t ht => hbounds t (List.mem_cons_of_mem s ht)
    have hkept : ((source.drop cursor).take (s.start - cursor)).length = s.start - cursor := by
      rw [List.length_take, List.length_drop]
      omega
    have hremoved : ((source.drop s.start).take s.remove).length = s.remove := by
      rw [List.length_take, List.length_drop]
      omega
    refine ⟨_, ?_, ⟨(source.drop cursor).take (s.start - cursor),
      (source.drop s.start).take s.remove, s.insert⟩ :: pieces, last, ?_, rfl, ?_, ?_⟩
    · rw [renderFrom, if_neg (Nat.not_lt.2 hs), hrender, Option.map_some, List.flatMap_cons]
      simp only [List.append_assoc]
    · have hstart : source.drop s.start = (source.drop s.start).take s.remove ++
          source.drop (s.start + s.remove) := by
        rw [← List.drop_drop, List.take_append_drop]
      have hcut : source.drop cursor = (source.drop cursor).take (s.start - cursor) ++
          source.drop s.start := by
        conv_lhs => rw [← List.take_append_drop (s.start - cursor) (source.drop cursor)]
        rw [List.drop_drop, Nat.add_sub_cancel' hs]
      rw [List.flatMap_cons, List.append_assoc, ← hsource, List.append_assoc, ← hstart, ← hcut]
    · rw [Piece.starts, hkept, hremoved, Nat.add_sub_cancel' hs, hstarts, List.map_cons]
    · rw [List.map_cons, List.map_cons, hmap, hremoved]

theorem before_trans (a b c : Splice) (hab : Splice.before a b = true)
    (hbc : Splice.before b c = true) : Splice.before a c = true := by
  simp only [Splice.before, Bool.or_eq_true, Bool.and_eq_true, decide_eq_true_iff] at hab hbc ⊢
  omega

theorem before_total (a b : Splice) : (Splice.before a b || Splice.before b a) = true := by
  simp only [Splice.before, Bool.or_eq_true, Bool.and_eq_true, decide_eq_true_iff]
  omega

theorem before_precedes {a b : Splice} (hseq : a.seq ≠ b.seq)
    (hbefore : Splice.before a b = true) : a.Precedes b := by
  simp only [Splice.before, Bool.or_eq_true, Bool.and_eq_true, decide_eq_true_iff] at hbefore
  rw [Splice.Precedes]
  omega

theorem Edit.Recorded.render (h : edit.Recorded) :
    ∃ splices text, splices.Perm edit.splices ∧ splices.Pairwise Splice.Precedes ∧
      edit.render = some text ∧ Spliced edit.source 0 splices text := by
  have hperm : (edit.splices.mergeSort Splice.before).Perm edit.splices :=
    List.mergeSort_perm _ _
  have hmem : ∀ s ∈ edit.splices.mergeSort Splice.before, s ∈ edit.splices :=
    fun s hs => hperm.mem_iff.1 hs
  have hbefore := List.pairwise_mergeSort before_trans before_total edit.splices
  have hbeside : (edit.splices.mergeSort Splice.before).Pairwise Splice.Beside :=
    (hperm.pairwise_iff Splice.Beside.symm).2 h.beside
  have hends : (edit.splices.mergeSort Splice.before).Pairwise
      fun a b => a.start + a.remove ≤ b.start :=
    (hbefore.and hbeside).imp_of_mem fun ha hb hab =>
      h.ends_before (hmem _ ha) (hmem _ hb) hab.2 hab.1
  obtain ⟨text, hrender, hspliced⟩ := @renderFrom_spliced edit.source 0
    (edit.splices.mergeSort Splice.before) (fun s _ => Nat.zero_le _) hends
    fun s hs => (h.takes s (hmem s hs)).bounds h.laid
  exact ⟨_, text, hperm, (hbefore.and hbeside).imp fun hab => before_precedes hab.2.1 hab.1,
    hrender, hspliced⟩

theorem init_recorded {source : Str} (h : init source = some edit) :
    edit.Recorded ∧ edit.source = source := by
  obtain ⟨sections, hsections, rfl⟩ := Option.map_eq_some_iff.1 h
  have hlaid := initFrom_laid hsections (le_refl 0) (le_refl 0) (le_refl 0)
  rw [Nat.zero_add] at hlaid
  exact ⟨⟨hlaid, fun s hs => absurd hs List.not_mem_nil, fun s hs => absurd hs List.not_mem_nil,
    .nil⟩, rfl⟩

/-- After any calls of `spn_toml_edit_set_str` the text is rendered, so the assertion that splices
do not overlap never fails: it is the text that was read, except that each splice that was recorded
has put its text where it starts, in the place of as many characters as it removes. -/
theorem sets_rendered {source : Str} (h : init source = some edit)
    (calls : List (List Str × Str)) :
    ∃ splices text, splices.Perm (edit.sets calls).splices ∧ splices.Pairwise Splice.Precedes ∧
      (edit.sets calls).render = some text ∧ Spliced source 0 splices text := by
  obtain ⟨hrecorded, rfl⟩ := init_recorded h
  obtain ⟨hsets, hsource⟩ := hrecorded.sets calls
  rw [← hsource]
  exact hsets.render

/-- The calls of an example: a value is set, set again in vain, a key is added at the end of the
text, and there a section. -/
def fourCalls : List (List Str × Str) :=
  [([str "a", str "b"], str "2"), ([str "a", str "b"], str "3"), ([str "a", str "c"], str "4"),
    ([str "d", str "e"], str "5")]

/-- What is recorded of them. -/
def threeSplices : List Splice :=
  [⟨8, 1, 0, str "\"2\""⟩, ⟨10, 0, 1, str "c = \"4\"\n"⟩, ⟨10, 0, 2, str "\n[d]\ne = \"5\"\n"⟩]

theorem sets_rendered_three : ∃ edit, init (str "[a]\nb = 1\n") = some edit ∧
    ∃ splices, splices.Perm threeSplices ∧ splices.Pairwise Splice.Precedes ∧
      Spliced (str "[a]\nb = 1\n") 0 splices
        (str "[a]\nb = \"2\"\nc = \"4\"\n\n[d]\ne = \"5\"\n") := by
  obtain ⟨edit, hedit⟩ := Option.isSome_iff_exists.1
    (show (init (str "[a]\nb = 1\n")).isSome = true by decide +kernel)
  obtain ⟨splices, text, hperm, hordered, hrender, hspliced⟩ := sets_rendered hedit fourCalls
  have hsets : (init (str "[a]\nb = 1\n")).map (fun edit =>
      ((edit.sets fourCalls).source, (edit.sets fourCalls).splices)) =
      some (str "[a]\nb = 1\n", threeSplices) := by decide +kernel
  rw [hedit, Option.map_some] at hsets
  obtain ⟨hsource, hsplices⟩ := Prod.mk.inj (Option.some.inj hsets)
  have hsorted : threeSplices.mergeSort Splice.before = threeSplices :=
    List.mergeSort_of_pairwise (by decide +kernel)
  have htext : renderFrom (str "[a]\nb = 1\n") 0 threeSplices =
      some (str "[a]\nb = \"2\"\nc = \"4\"\n\n[d]\ne = \"5\"\n") := by decide +kernel
  rw [Edit.render, hsource, hsplices, hsorted, htext] at hrender
  exact ⟨edit, hedit, splices, hsplices ▸ hperm, hordered, Option.some.inj hrender ▸ hspliced⟩

end Spn.Toml
