import Spn.Dag.CacheFields

/-! # The files of the cache are lossless

What the writers write is read back as it was, and what the readers accept is read again from
its own rendering. Hints are so unless a number of a hint is the least one.
-/
namespace Spn.Dag.CacheFile

open Spn.Lib

variable {s rest : Str}

/-! ## Outputs -/

theorem stops_space (rest : Str) : Stops (space :: rest) := stops_cons (by decide) rest

theorem parseOutputRow_write {o : ActionOutput} (ho : o.name.length < 2 ^ 64) (rest : Str) :
    parseOutputRow (writeOutputRow o ++ rest) = .ok (o, rest) := by
  rw [writeOutputRow, List.append_assoc, List.cons_append, List.append_assoc, List.singleton_append,
    parseOutputRow, Reader.bind_ok (rowDigest_hex o.digest _), Reader.bind_ok (rowLit_cons space _),
    Reader.bind_ok (rowStr_write ho _), Reader.bind_ok (rowLit_cons newline _)]
  rfl

theorem parseOutputRow_takes : Reader.Takes parseOutputRow :=
  rowDigest_takes.bind fun _ => (rowLit_takes space).keeps.bind fun _ =>
    rowStr_takes.keeps.bind fun _ => (rowLit_takes newline).keeps.bind fun _ => Reader.keeps_pure _

theorem parseOutputRow_never {e : Fault} (he : e ≠ .reject) : Reader.Never e parseOutputRow :=
  (rowDigest_never he).bind fun _ => (rowLit_never space he).bind fun _ =>
    (rowStr_never he).bind fun _ => (rowLit_never newline he).bind fun _ => Reader.never_pure e _

theorem parseOutputRow_small (s : Str) (o : ActionOutput) (rest : Str)
    (h : parseOutputRow s = .ok (o, rest)) : o.name.length < 2 ^ 64 := by
  obtain ⟨d, s₁, -, h⟩ := Reader.bind_eq_ok.1 h
  obtain ⟨u, s₂, -, h⟩ := Reader.bind_eq_ok.1 h
  obtain ⟨name, s₃, hname, h⟩ := Reader.bind_eq_ok.1 h
  obtain ⟨u', s₄, -, h⟩ := Reader.bind_eq_ok.1 h
  obtain ⟨rfl, -⟩ := Reader.pure_eq_ok.1 h
  exact rowStr_small hname

theorem rowHeader_cons (version : UInt8) (rest : Str) :
    rowHeader version (version :: newline :: rest) = .ok ((), rest) := by
  rw [rowHeader, Reader.bind_ok (rowLit_cons version _), rowLit_cons]

theorem rowHeader_eq_ok {version : UInt8} {u : Unit} (h : rowHeader version s = .ok (u, rest)) :
    s = version :: newline :: rest := by
  obtain ⟨u, s₁, hversion, hnewline⟩ := Reader.bind_eq_ok.1 h
  rw [rowLit_eq_ok hversion, rowLit_eq_ok hnewline]

theorem rowHeader_never (version : UInt8) {e : Fault} (he : e ≠ .reject) :
    Reader.Never e (rowHeader version) :=
  (rowLit_never version he).bind fun _ => rowLit_never newline he

/-- A header is read, or the text is rejected. -/
theorem rowHeader_cases (version : UInt8) (s : Str) :
    (∃ rest, s = version :: newline :: rest) ∨ rowHeader version s = .error .reject := by
  cases h : rowHeader version s with
  | ok x => exact .inl ⟨x.2, rowHeader_eq_ok h⟩
  | error e =>
    by_cases he : e = .reject
    · exact .inr (by rw [he])
    · exact absurd h (rowHeader_never version he s)

/-- Where a row can only be rejected, so can the file. -/
theorem rows_reject {α : Type} {row : Row α} (hrow : Reader.Takes row)
    (hnever : ∀ {e : Fault}, e ≠ .reject → Reader.Never e row) {e : Fault}
    (h : rows row s = .error e) : e = .reject := by
  obtain ⟨rest, hread⟩ := Reader.many_fails hrow h
  by_contra he
  exact hnever he rest hread

theorem parseOutputs_header (rest : Str) :
    parseOutputs (outputsVersion :: newline :: rest) = rows parseOutputRow rest := by
  rw [parseOutputs, rowHeader_cons]

/-- What `write_outputs` writes is read back. -/
theorem parseOutputs_write {os : List ActionOutput} (h : ∀ o ∈ os, o.name.length < 2 ^ 64) :
    parseOutputs (writeOutputs os) = .ok os := by
  have hloop : Reader.many parseOutputRow .endless (os.flatMap writeOutputRow ++ []) =
      (Reader.many parseOutputRow .endless []).map (os.map id ++ ·) :=
    Reader.many_flatMap parseOutputRow_takes fun o ho rest => parseOutputRow_write (h o ho) rest
  rw [List.append_nil] at hloop
  rw [writeOutputs, parseOutputs_header, rows, hloop]
  simp [Except.map]

/-- `parse_outputs` rejects, or what it returns is read again from its rendering. -/
theorem parseOutputs_cases (content : Str) : parseOutputs content = .error .reject ∨
    ∃ os, parseOutputs content = .ok os ∧ parseOutputs (writeOutputs os) = .ok os := by
  rcases rowHeader_cases outputsVersion content with ⟨rest, rfl⟩ | hreject
  · rw [parseOutputs_header]
    cases h : rows parseOutputRow rest with
    | ok os => exact .inr ⟨os, rfl, parseOutputs_write
        (Reader.many_forall parseOutputRow_takes parseOutputRow_small h)⟩
    | error e => exact .inl (by rw [rows_reject parseOutputRow_takes parseOutputRow_never h])
  · exact .inl (by rw [parseOutputs, hreject])

/-! ## Path sets -/

variable {absolute : Str → Bool}

theorem parseObsKind_format (kind : ObsKind) : parseObsKind (formatObsKind kind) = some kind := by
  cases kind <;> rfl

theorem rowKind_cons (kind : ObsKind) (rest : Str) :
    rowKind (formatObsKind kind :: rest) = .ok (kind, rest) := by
  have hbytes : rowBytes 1 (formatObsKind kind :: rest) = .ok ([formatObsKind kind], rest) :=
    rowBytes_append [formatObsKind kind] rest
  rw [rowKind, Reader.bind_ok hbytes, List.head?_cons, Option.bind_some, parseObsKind_format]
  rfl

theorem rowKind_takes : Reader.Takes rowKind := by
  intro s kind rest h
  obtain ⟨t, s₁, hbytes, hnext⟩ := Reader.bind_eq_ok.1 h
  obtain ⟨hlen, hs⟩ := rowBytes_eq_ok hbytes
  cases hkind : t.head?.bind parseObsKind with
  | none =>
    rw [hkind] at hnext
    cases hnext
  | some kind' =>
    rw [hkind] at hnext
    obtain ⟨-, rfl⟩ := Reader.pure_eq_ok.1 hnext
    rw [hs, List.length_append]
    omega

theorem rowKind_never {e : Fault} (he : e ≠ .reject) : Reader.Never e rowKind := by
  refine (rowBytes_never 1 he).bind fun t => ?_
  cases t.head?.bind parseObsKind with
  | none => exact reject_never he
  | some kind => exact Reader.never_pure e kind

/-- A row that `write_obs_row` is given: only enumerations have a filter. -/
structure RowOk (absolute : Str → Bool) (o : Obs) : Prop where
  path : PathOk absolute o.path
  filter : o.kind ≠ .enumeration → o.filter = []
  small : o.filter.length < 2 ^ 64

theorem rowFilter_write {o : Obs} (ho : RowOk absolute o) (rest : Str) :
    rowFilter o.kind ((if o.kind = .enumeration then writeRowStr o.filter ++ [space] else []) ++ rest)
      = .ok (o.filter, rest) := by
  by_cases hkind : o.kind = .enumeration
  · rw [rowFilter, if_pos hkind, if_pos hkind, List.append_assoc, List.singleton_append,
      Reader.bind_ok (rowStr_write ho.small _), Reader.bind_ok (rowLit_cons space _)]
    rfl
  · rw [rowFilter, if_neg hkind, if_neg hkind, ho.filter hkind]
    rfl

theorem rowFilter_eq_ok {kind : ObsKind} {filter : Str}
    (h : rowFilter kind s = .ok (filter, rest)) :
    (kind ≠ .enumeration → filter = []) ∧ filter.length < 2 ^ 64 := by
  rw [rowFilter] at h
  split_ifs at h with hkind
  · obtain ⟨t, s₁, hstr, h⟩ := Reader.bind_eq_ok.1 h
    obtain ⟨u, s₂, -, h⟩ := Reader.bind_eq_ok.1 h
    obtain ⟨rfl, -⟩ := Reader.pure_eq_ok.1 h
    exact ⟨fun hne => absurd hkind hne, rowStr_small hstr⟩
  · obtain ⟨rfl, -⟩ := Reader.pure_eq_ok.1 h
    exact ⟨fun _ => rfl, by decide⟩

theorem rowFilter_keeps (kind : ObsKind) : Reader.Keeps (rowFilter kind) := by
  rw [rowFilter]
  split_ifs
  · exact rowStr_takes.keeps.bind fun _ => (rowLit_takes space).keeps.bind fun _ =>
      Reader.keeps_pure _
  · exact Reader.keeps_pure _

theorem rowFilter_never (kind : ObsKind) {e : Fault} (he : e ≠ .reject) :
    Reader.Never e (rowFilter kind) := by
  rw [rowFilter]
  split_ifs
  · exact (rowStr_never he).bind fun _ => (rowLit_never space he).bind fun _ =>
      Reader.never_pure e _
  · exact Reader.never_pure e _

theorem parseObsRow_text {o : Obs} (ho : RowOk absolute o) (rest : Str) :
    parseObsRow absolute (obsText o ++ rest) = .ok (o, rest) := by
  have htext : obsText o ++ rest = formatObsKind o.kind :: space :: (decimal o.path.root.toNat ++
      space :: ((if o.kind = .enumeration then writeRowStr o.filter ++ [space] else []) ++
        (o.path.sub ++ newline :: rest))) := by
    simp [obsText]
  rw [htext, parseObsRow, Reader.bind_ok (rowKind_cons o.kind _), Reader.bind_ok (rowLit_cons space _),
    Reader.bind_ok (rowRoot_decimal _ (stops_space _)), Reader.bind_ok (rowLit_cons space _),
    Reader.bind_ok (rowFilter_write ho _), Reader.bind_ok (rowPath_append ho.path rest)]
  rfl

theorem parseObsRow_takes : Reader.Takes (parseObsRow absolute) :=
  rowKind_takes.bind fun kind => (rowLit_takes space).keeps.bind fun _ =>
    rowRoot_keeps.bind fun root => (rowLit_takes space).keeps.bind fun _ =>
      (rowFilter_keeps kind).bind fun _ => (rowPath_keeps root).bind fun _ => Reader.keeps_pure _

theorem parseObsRow_never {e : Fault} (he : e ≠ .reject) :
    Reader.Never e (parseObsRow absolute) :=
  (rowKind_never he).bind fun kind => (rowLit_never space he).bind fun _ =>
    (rowRoot_never he).bind fun root => (rowLit_never space he).bind fun _ =>
      (rowFilter_never kind he).bind fun _ => (rowPath_never root he).bind fun _ =>
        Reader.never_pure e _

theorem parseObsRow_ok (s : Str) (o : Obs) (rest : Str)
    (h : parseObsRow absolute s = .ok (o, rest)) : RowOk absolute o := by
  obtain ⟨kind, s₁, -, h⟩ := Reader.bind_eq_ok.1 h
  obtain ⟨u, s₂, -, h⟩ := Reader.bind_eq_ok.1 h
  obtain ⟨root, s₃, -, h⟩ := Reader.bind_eq_ok.1 h
  obtain ⟨u', s₄, -, h⟩ := Reader.bind_eq_ok.1 h
  obtain ⟨filter, s₅, hfilter, h⟩ := Reader.bind_eq_ok.1 h
  obtain ⟨path, s₆, hpath, h⟩ := Reader.bind_eq_ok.1 h
  obtain ⟨rfl, -⟩ := Reader.pure_eq_ok.1 h
  obtain ⟨hnone, hsmall⟩ := rowFilter_eq_ok hfilter
  exact ⟨(rowPath_eq_ok hpath).2.1, hnone, hsmall⟩

/-- The text of a path set whose rows can be written. -/
def obsTexts (set : Pathset) : Str :=
  obsVersion :: newline :: (digestHex set.pinned ++ newline :: set.obs.flatMap obsText)

theorem writeObs_eq {set : Pathset} (h : ∀ o ∈ set.obs, newline ∉ o.path.sub) :
    writeObs set = some (obsTexts set) := by
  have hrows : ∀ {os : List Obs}, (∀ o ∈ os, newline ∉ o.path.sub) →
      os.mapM writeObsRow = some (os.map obsText) := by
    intro os
    induction os with
    | nil => exact fun _ => rfl
    | cons o os ih =>
      intro hos
      have ho : writeObsRow o = some (obsText o) := if_neg (hos o List.mem_cons_self)
      rw [List.mapM_cons, ho, ih fun o' ho' => hos o' (List.mem_cons_of_mem _ ho')]
      rfl
  rw [writeObs, hrows h, Option.map_some, ← List.flatMap_def]
  rfl

/-- What `parse_obs` does before the rows. -/
theorem parseObs_header (d : Digest) (rest : Str) :
    parseObs absolute (obsVersion :: newline :: (digestHex d ++ newline :: rest)) =
      (rows (parseObsRow absolute) rest).map fun obs => ⟨d, obs⟩ := by
  rw [parseObs, rowPinned, Reader.bind_ok (rowHeader_cons obsVersion _),
    Reader.bind_ok (rowDigest_hex d _), Reader.bind_ok (rowLit_cons newline _)]
  rfl

theorem rowPinned_never {e : Fault} (he : e ≠ .reject) : Reader.Never e rowPinned :=
  (rowHeader_never obsVersion he).bind fun _ => (rowDigest_never he).bind fun _ =>
    (rowLit_never newline he).bind fun _ => Reader.never_pure e _

/-- What `write_obs` writes is read back. -/
theorem parseObs_write {set : Pathset} (h : ∀ o ∈ set.obs, RowOk absolute o) :
    ∃ text, writeObs set = some text ∧ parseObs absolute text = .ok set := by
  refine ⟨_, writeObs_eq fun o ho => (h o ho).path.1, ?_⟩
  have hloop : Reader.many (parseObsRow absolute) .endless (set.obs.flatMap obsText ++ []) =
      (Reader.many (parseObsRow absolute) .endless []).map (set.obs.map id ++ ·) :=
    Reader.many_flatMap parseObsRow_takes fun o ho rest => parseObsRow_text (h o ho) rest
  rw [List.append_nil] at hloop
  rw [obsTexts, parseObs_header, rows, hloop]
  simp [Except.map]

/-- `parse_obs` rejects, or what it returns is written and read again. -/
theorem parseObs_cases (content : Str) : parseObs absolute content = .error .reject ∨
    ∃ set, parseObs absolute content = .ok set ∧
      ∃ text, writeObs set = some text ∧ parseObs absolute text = .ok set := by
  rw [parseObs]
  cases hhead : rowPinned content with
  | error e =>
    by_cases he : e = .reject
    · exact .inl (by rw [he])
    · exact absurd hhead (rowPinned_never he content)
  | ok x =>
    simp only
    cases h : rows (parseObsRow absolute) x.2 with
    | ok obs => exact .inr ⟨_, rfl, parseObs_write
        (Reader.many_forall parseObsRow_takes parseObsRow_ok h)⟩
    | error e => exact .inl (by rw [rows_reject parseObsRow_takes parseObsRow_never h]; rfl)

end Spn.Dag.CacheFile
