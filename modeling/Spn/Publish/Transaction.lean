import Spn.Publish.Steps

/-! # A publication is a transaction

The invariant of the publishers: a call that has freshened its clone works on a state of
the branch, and commits it with one line more. A push that fast-forwards the branch then
adds that line to what is there. It holds as long as what `git clean` leaves in a clone of
a branch that is not there yet holds nothing staged, and lines are appended to whole lines.
-/
namespace Spn.Publish

open Spn.Lib

/-- The condition on the state before a command: a clone that is kept though it has no
branch has nothing staged, and a line is written as a whole, behind whole lines. -/
def Careful (F : Format) (p : Publisher) : Event → Prop
  | .keep => ∀ c, p.clone = some c → c.index = fun _ => none
  | .append written => ∀ k c, p.call = some k → p.clone = some c →
      written = F.write k.release ++ [newline] ∧ Terminated newline ((c.work k.path).getD [])
  | _ => True

/-! ## What a turn does to the books -/

/-- How a turn goes on with a call, ends it, or leaves it. -/
inductive Effect (remote : History) (p : Publisher) : Publisher × Outcome → Prop
  | goes {p' : Publisher} {k k' : Call} : p.call = some k → p'.call = some k' →
      k'.number = k.number → p'.calls = p.calls → Effect remote p (p', .quiet)
  | starts {p' : Publisher} {k' : Call} : p'.call = some k' → k'.number = p.calls →
      p'.calls = p.calls + 1 → Effect remote p (p', .quiet)
  | rests {p' : Publisher} : p'.call = none → p'.calls = p.calls → Effect remote p (p', .quiet)
  | refuses {p' : Publisher} (release : Release) (err : PublishErr) : p'.call = none →
      p'.calls = p.calls + 1 → Effect remote p (p', .returned p.calls release (some err))
  | fails {p' : Publisher} {k : Call} (err : PublishErr) : p.call = some k → p'.call = none →
      p'.calls = p.calls → Effect remote p (p', .returned k.number k.release (some err))
  | confirms {p' : Publisher} {k : Call} {c : Clone} : p.call = some k → k.pc = .push →
      p.clone = some c → c.head = remote → p'.call = none → p'.calls = p.calls →
      Effect remote p (p', .returned k.number k.release none)
  | advances {p' : Publisher} {k : Call} {c : Clone} : p.call = some k → k.pc = .push →
      p.clone = some c → remote <:+ c.head → c.head ≠ remote → p'.call = none →
      p'.calls = p.calls → Effect remote p (p', .advanced k.number k.release c.head)

section

variable {F : Format} {remote : History} {p : Publisher}

theorem Effect.of_fail {q : Publisher} {k : Call} (hk : p.call = some k) (hcalls : q.calls = p.calls)
    (err : PublishErr) : Effect remote p (q.fail k err) := by
  unfold Publisher.fail
  split
  · exact .goes hk rfl rfl hcalls
  · exact .fails err hk rfl hcalls

theorem Effect.of_stale {q : Publisher} {k : Call} (hk : p.call = some k)
    (hcalls : q.calls = p.calls) : Effect remote p (q.stale k) := by
  unfold Publisher.stale
  cases k.failed with
  | none => exact .of_fail hk hcalls _
  | some err => exact .fails err hk rfl hcalls

theorem Turn.effect {event : Event} {turn : Publisher × Outcome}
    (h : Turn F remote p event turn) : Effect remote p turn := by
  cases h with
  | begin release hidle => exact .starts rfl rfl rfl
  | refuse release hidle herr => exact .refuses release _ hidle rfl
  | clone hk => exact .goes hk rfl rfl rfl
  | cloneFailed hk => exact .of_stale hk rfl
  | fetch follow hk => exact .goes hk rfl rfl rfl
  | fetchFailed hk => exact .goes hk rfl rfl rfl
  | checkout hk => exact .goes hk rfl rfl rfl
  | checkoutFailed hk => exact .goes hk rfl rfl rfl
  | keep hk => exact .goes hk rfl rfl rfl
  | reclone hk => exact .goes hk rfl rfl rfl
  | @clean k c a hk hpc hc =>
    unfold Publisher.freshened
    cases k.failed with
    | none => exact .goes hk rfl rfl rfl
    | some err => exact .fails err hk rfl rfl
  | cleanFailed hk => exact .goes hk rfl rfl rfl
  | giveUp hk => exact .of_stale hk rfl
  | @read k c hk hpc hc =>
    cases lookup F c k.release with
    | none => exact .goes hk rfl rfl rfl
    | some err => exact .of_fail hk rfl err
  | append hk => exact .goes hk rfl rfl rfl
  | detect hk => exact .goes hk rfl rfl rfl
  | detectFailed hk => exact .of_fail hk rfl _
  | add hk => exact .goes hk rfl rfl rfl
  | @addFailed k c c' hk hpc hc hs => exact .of_fail (q := { p with clone := some c' }) hk rfl _
  | commit stamp hk => exact .goes hk rfl rfl rfl
  | @commitFailed k c c' hk hpc hc hs => exact .of_fail (q := { p with clone := some c' }) hk rfl _
  | pushAdvances hk hpc hc hff hnew => exact .advances hk hpc hc hff hnew rfl rfl
  | pushUpToDate hk hpc hc hhead => exact .confirms hk hpc hc hhead rfl rfl
  | pushRejected hk hpc =>
    split
    · exact .goes hk rfl rfl rfl
    · exact .of_fail hk rfl _
  | crash => exact .rests rfl rfl
  | damage hidle => exact .rests hidle rfl

end

/-! ## The invariant of a publisher -/

/-- The file is that of the tree with the line of the release more, and its versions are
all different. -/
structure Extended (F : Format) (tree : Tree) (release : Release) (blob : Str) : Prop where
  lines : Lib.lines newline blob =
    Lib.lines newline ((tree (jsonlPath release.id)).getD []) ++ [F.write release]
  versions : (F.versions blob).Nodup

/-- The clone is at a state of the branch. -/
def Clone.Ready (remote : History) (c : Clone) : Prop :=
  c.head <:+ remote ∧ c.index = c.head.tree ∧ c.work = c.head.tree

/-- The files are those of the commit with one package file extended. -/
def Clone.Written (F : Format) (remote : History) (k : Call) (c : Clone) (files : Tree) : Prop :=
  c.head <:+ remote ∧ ∃ blob, Extended F c.head.tree k.release blob ∧
    files = Function.update c.head.tree k.path (some blob)

/-- What holds of the clone before each command. -/
def Phase (F : Format) (remote : History) (k : Call) (c : Clone) : Pc → Prop
  | .fetch _ | .branch _ => True
  | .clean _ => Clone.Ready remote c.clean
  | .read => Clone.Ready remote c
  | .append => Clone.Ready remote c ∧ lookup F c k.release = none
  | .detect | .add => c.index = c.head.tree ∧ c.Written F remote k c.work
  | .commit => c.Written F remote k c.index
  | .push => ∃ (blob : Str) (base : History) (stamp : ℕ), base <:+ remote ∧
      Extended F base.tree k.release blob ∧
        c.head = ⟨Function.update base.tree k.path (some blob), stamp⟩ :: base

/-- The invariant of a publisher. -/
structure Publisher.Inv (F : Format) (remote : History) (p : Publisher) : Prop where
  origin : ∀ c, p.clone = some c → c.origin <:+ remote
  phase : ∀ k c, p.call = some k → p.clone = some c → Phase F remote k c k.pc
  number : ∀ k, p.call = some k → k.number + 1 = p.calls

section

variable {F : Format} {remote : History} {p : Publisher}

/-- The branch moves on. -/
theorem Phase.mono {remote' : History} (hle : remote <:+ remote') {k : Call} {c : Clone} {pc : Pc}
    (h : Phase F remote k c pc) : Phase F remote' k c pc := by
  cases pc with
  | fetch a => trivial
  | branch a => trivial
  | clean a => exact ⟨h.1.trans hle, h.2⟩
  | read => exact ⟨h.1.trans hle, h.2⟩
  | append => exact ⟨⟨h.1.1.trans hle, h.1.2⟩, h.2⟩
  | detect => exact ⟨h.1, h.2.1.trans hle, h.2.2⟩
  | add => exact ⟨h.1, h.2.1.trans hle, h.2.2⟩
  | commit => exact ⟨h.1.trans hle, h.2⟩
  | push =>
    obtain ⟨blob, base, stamp, hbase, hrest⟩ := h
    exact ⟨blob, base, stamp, hbase.trans hle, hrest⟩

theorem Publisher.Inv.mono {remote' : History} (hle : remote <:+ remote') (h : p.Inv F remote) :
    p.Inv F remote' :=
  ⟨fun c hc => (h.origin c hc).trans hle, fun k c hk hc => (h.phase k c hk hc).mono hle, h.number⟩

/-- A clone alone. -/
theorem Publisher.Inv.idle (h : ∀ c, p.clone = some c → c.origin <:+ remote)
    (hidle : p.call = none) : p.Inv F remote where
  origin := h
  phase k c hk := by
    rw [hidle] at hk
    cases hk
  number k hk := by
    rw [hidle] at hk
    cases hk

/-- A call that freshens its clone. -/
theorem Publisher.Inv.freshening {k : Call} {a : ℕ} (h : ∀ c, p.clone = some c → c.origin <:+ remote)
    (hk : p.call = some k) (hpc : k.pc = .fetch a ∨ k.pc = .branch a)
    (hnumber : k.number + 1 = p.calls) : p.Inv F remote where
  origin := h
  phase k' c hk' hc := by
    rw [hk] at hk'
    cases hk'
    rcases hpc with hpc | hpc
    · rw [hpc]
      trivial
    · rw [hpc]
      trivial
  number k' hk' := by
    rw [hk] at hk'
    cases hk'
    exact hnumber

/-- A call before the next command of `publish_git`. -/
theorem Publisher.Inv.working {k : Call} {c : Clone} (hc : p.clone = some c)
    (horigin : c.origin <:+ remote) (hk : p.call = some k) (hphase : Phase F remote k c k.pc)
    (hnumber : k.number + 1 = p.calls) : p.Inv F remote where
  origin c' hc' := by
    rw [hc] at hc'
    cases hc'
    exact horigin
  phase k' c' hk' hc' := by
    rw [hk] at hk'
    rw [hc] at hc'
    cases hk'
    cases hc'
    exact hphase
  number k' hk' := by
    rw [hk] at hk'
    cases hk'
    exact hnumber

theorem Publisher.Inv.fail {k : Call} (h : ∀ c, p.clone = some c → c.origin <:+ remote)
    (hnumber : k.number + 1 = p.calls) (err : PublishErr) : (p.fail k err).1.Inv F remote := by
  unfold Publisher.fail
  split
  · exact .freshening (a := 0) h rfl (.inl rfl) hnumber
  · exact .idle h rfl

theorem Publisher.Inv.stale {k : Call} (h : ∀ c, p.clone = some c → c.origin <:+ remote)
    (hnumber : k.number + 1 = p.calls) : (p.stale k).1.Inv F remote := by
  unfold Publisher.stale
  cases k.failed with
  | none => exact .fail h hnumber _
  | some err => exact .idle h rfl

/-- What a lookup that finds nothing says of the file. -/
theorem extended_of_lookup (hF : F.Lawful) {c : Clone} {release : Release}
    (h : lookup F c release = none)
    (hterminated : Terminated newline ((c.work (jsonlPath release.id)).getD [])) :
    Extended F c.work release
      ((c.work (jsonlPath release.id)).getD [] ++ (F.write release ++ [newline])) := by
  have hlines := lines_append hterminated (F.write release ++ [newline])
  rw [lines_line (hF.newline release)] at hlines
  refine ⟨hlines, ?_⟩
  have hversion : F.version (F.write release) = some release.version := by
    rw [Format.version, hF.blank, hF.read]
    rfl
  have hmore : F.versions ((c.work (jsonlPath release.id)).getD [] ++
      (F.write release ++ [newline])) =
        F.versions ((c.work (jsonlPath release.id)).getD []) ++ [release.version] := by
    rw [Format.versions, hlines, List.filterMap_append, ← Format.versions]
    simp [hversion]
  rw [hmore]
  unfold lookup at h
  split at h
  case h_1 hnone =>
    rw [hnone]
    exact List.nodup_singleton _
  case h_2 blob hblob =>
    rw [hblob, Option.getD_some]
    split at h
    case h_1 => cases h
    case h_2 releases hparse =>
      obtain ⟨hnodup, hversions⟩ := parsePkg_versions hparse
      split at h
      case isTrue => cases h
      case isFalse hnew =>
        rw [hversions]
        refine List.nodup_append.2 ⟨hnodup, List.nodup_singleton _, ?_⟩
        intro v hv w hw hvw
        obtain ⟨other, hother, rfl⟩ := List.mem_map.1 hv
        rw [List.mem_singleton] at hw
        exact hnew (List.any_eq_true.2 ⟨other, hother, by simpa using hvw.trans hw⟩)

/-- A turn keeps the invariant of the publisher that takes it. -/
theorem Turn.inv (hF : F.Lawful) {event : Event} {turn : Publisher × Outcome}
    (h : Turn F remote p event turn) (hcareful : Careful F p event) (hp : p.Inv F remote) :
    turn.1.Inv F remote := by
  have hscrambled : ∀ {c c' : Clone}, p.clone = some c → c.Scrambled c' →
      ∀ d, some c' = some d → d.origin <:+ remote := by
    intro c c' hc hs d hd
    cases hd
    rw [hs.1]
    exact hp.origin c hc
  cases h with
  | begin release hidle => exact .freshening (a := 0) hp.origin rfl (.inl rfl) rfl
  | refuse release hidle herr => exact .idle hp.origin hidle
  | @clone k a hk hpc ha hc =>
    refine .freshening (a := a) ?_ rfl (.inr rfl) (hp.number k hk)
    intro c hc
    cases hc
    exact List.suffix_refl _
  | @cloneFailed k a hk hpc ha hc =>
    refine .stale ?_ (hp.number k hk)
    intro c hc
    cases hc
  | @fetch k c follow hk hpc hc =>
    refine .freshening (a := 0) ?_ rfl (.inr rfl) (hp.number k hk)
    intro d hd
    cases hd
    exact List.suffix_refl _
  | @fetchFailed k c c' hk hpc hc hs =>
    exact .freshening (a := 1) (hscrambled hc hs) rfl (.inl rfl) (hp.number k hk)
  | @checkout k c a hk hpc hc hhead horigin =>
    have ho := hp.origin c hc
    exact .working rfl ho rfl ⟨ho, c.clean_checkout⟩ (hp.number k hk)
  | @checkoutFailed k c c' a hk hpc hc hhead hs =>
    exact .freshening (a := a + 1) (hscrambled hc hs) rfl (.inl rfl) (hp.number k hk)
  | @keep k c a hk hpc hc hname horigin hhead =>
    have hindex : c.index = fun _ => none := hcareful c hc
    refine .working hc (hp.origin c hc) rfl ⟨?_, ?_, ?_⟩ (hp.number k hk)
    · exact hhead ▸ List.nil_suffix
    · rw [show c.clean.index = c.index from rfl, hindex, show c.clean.head = c.head from rfl, hhead]
      rfl
    · rw [show c.clean.head = c.head from rfl, hhead]
      exact funext fun path => by simp [Clone.clean, hindex, History.tree]
  | @reclone k c a hk hpc hc hname hnew =>
    exact .freshening (a := a + 1) hp.origin rfl (.inl rfl) (hp.number k hk)
  | @clean k c a hk hpc hc =>
    have hready : Phase F remote k c (.clean a) := hpc ▸ hp.phase k c hk hc
    have ho : c.clean.origin <:+ remote := hp.origin c hc
    unfold Publisher.freshened
    cases k.failed with
    | none => exact .working rfl ho rfl hready (hp.number k hk)
    | some err =>
      refine .idle ?_ rfl
      intro d hd
      cases hd
      exact ho
  | @cleanFailed k c c' a hk hpc hc hs =>
    exact .freshening (a := a + 1) (hscrambled hc hs) rfl (.inl rfl) (hp.number k hk)
  | @giveUp k a hk hpc ha => exact .stale hp.origin (hp.number k hk)
  | @read k c hk hpc hc =>
    have hready : Phase F remote k c .read := hpc ▸ hp.phase k c hk hc
    cases hlookup : lookup F c k.release with
    | none => exact .working hc (hp.origin c hc) rfl ⟨hready, hlookup⟩ (hp.number k hk)
    | some err => exact .fail hp.origin (hp.number k hk) err
  | @append k c written hk hpc hc hprefix =>
    obtain ⟨⟨hhead, hindex, hwork⟩, hlookup⟩ : Phase F remote k c .append := hpc ▸ hp.phase k c hk hc
    obtain ⟨hwritten, hterminated⟩ := hcareful k c hk hc
    have hmore := extended_of_lookup hF hlookup hterminated
    rw [← hwritten, hwork] at hmore
    refine .working rfl (hp.origin c hc) rfl ⟨hindex, hhead, _, hmore, ?_⟩ (hp.number k hk)
    rw [Clone.append, hwork]
    rfl
  | @detect k hk hpc =>
    refine ⟨hp.origin, ?_, ?_⟩
    · intro k' c hk' hc
      cases hk'
      have hphase : Phase F remote k c .detect := hpc ▸ hp.phase k c hk hc
      exact hphase
    · intro k' hk'
      cases hk'
      exact hp.number k hk
  | @detectFailed k hk hpc => exact .fail hp.origin (hp.number k hk) _
  | @add k c hk hpc hc hwork =>
    obtain ⟨hindex, hhead, blob, hmore, hfiles⟩ : Phase F remote k c .add :=
      hpc ▸ hp.phase k c hk hc
    refine .working rfl (hp.origin c hc) rfl ⟨hhead, blob, hmore, ?_⟩ (hp.number k hk)
    rw [Clone.add, hindex, hfiles, Function.update_self]
    rfl
  | @addFailed k c c' hk hpc hc hs =>
    exact .fail (p := { p with clone := some c' }) (hscrambled hc hs) (hp.number k hk) _
  | @commit k c stamp hk hpc hc hnew =>
    obtain ⟨hhead, blob, hmore, hfiles⟩ : Phase F remote k c .commit := hpc ▸ hp.phase k c hk hc
    refine .working rfl (hp.origin c hc) rfl ⟨blob, c.head, stamp, hhead, hmore, ?_⟩ (hp.number k hk)
    rw [Clone.commit, hfiles]
    rfl
  | @commitFailed k c c' hk hpc hc hs =>
    exact .fail (p := { p with clone := some c' }) (hscrambled hc hs) (hp.number k hk) _
  | pushAdvances hk hpc hc hff hnew => exact .idle hp.origin rfl
  | pushUpToDate hk hpc hc hhead => exact .idle hp.origin rfl
  | @pushRejected k hk hpc =>
    split
    · exact .freshening (a := 0) hp.origin rfl (.inl rfl) (hp.number k hk)
    · exact .fail hp.origin (hp.number k hk) _
  | @crash k c' hk hsome hnone =>
    refine .idle ?_ rfl
    intro d hd
    cases hc : p.clone with
    | none =>
      rw [show c' = none from hnone hc] at hd
      cases hd
    | some c =>
      obtain ⟨s, hs, hscr⟩ := hsome c hc
      rw [show c' = some s from hs] at hd
      exact hscrambled hc hscr d hd
  | @damage c c' hidle hc hs => exact .idle (hscrambled hc hs) hidle

end

/-! ## The books of a run -/

/-- What the notes of a run say: a call returns once, and moved the branch only if it
returned without an error. -/
structure World.Booked (w : World) : Prop where
  number : ∀ e ∈ w.returned, e.1.2 < (w.publishers e.1.1).calls
  active : ∀ i k, (w.publishers i).call = some k → ∀ e ∈ w.returned, e.1 ≠ (i, k.number)
  distinct : (w.returned.map Prod.fst).Nodup
  pushed : ∀ e ∈ w.pushed, (e.1, e.2, none) ∈ w.returned

section

variable {w : World} {i : ℕ} {p : Publisher}

/-- A turn after which the call goes on, or there is none. -/
theorem World.Booked.quiet (h : w.Booked) (hcalls : (w.publishers i).calls ≤ p.calls)
    (hfree : ∀ k, p.call = some k → ∀ e ∈ w.returned, e.1 ≠ (i, k.number)) :
    (w.after i (p, .quiet)).Booked where
  number e he := by
    have hlt := h.number e he
    by_cases hi : e.1.1 = i
    · simp only [World.after, hi, Function.update_self]
      rw [hi] at hlt
      omega
    · simpa only [World.after, Function.update_of_ne hi] using hlt
  active j k hk e he := by
    by_cases hj : j = i
    · subst hj
      simp only [World.after, Function.update_self] at hk
      exact hfree k hk e he
    · simp only [World.after, Function.update_of_ne hj] at hk
      exact h.active j k hk e he
  distinct := h.distinct
  pushed := h.pushed

/-- A call returns. -/
theorem World.Booked.returned (h : w.Booked) (hcalls : (w.publishers i).calls ≤ p.calls)
    {number : ℕ} (hnumber : number < p.calls) (hcall : p.call = none)
    (hfree : ∀ e ∈ w.returned, e.1 ≠ (i, number)) (release : Release) (err : Option PublishErr) :
    (w.after i (p, .returned number release err)).Booked := by
  have hquiet := h.quiet (i := i) hcalls fun k hk => by
    rw [hcall] at hk
    cases hk
  constructor
  · intro e he
    rcases List.mem_append.1 he with he | he
    · exact hquiet.number e he
    · cases List.mem_singleton.1 he
      simpa only [World.after, Function.update_self] using hnumber
  · intro j k hk e he
    rcases List.mem_append.1 he with he | he
    · exact hquiet.active j k hk e he
    · cases List.mem_singleton.1 he
      intro heq
      have hj : i = j := congrArg Prod.fst heq
      subst hj
      simp only [World.after, Function.update_self, hcall] at hk
      cases hk
  · simp only [World.after, List.map_append, List.map_singleton]
    refine List.nodup_append.2 ⟨h.distinct, List.nodup_singleton _, ?_⟩
    intro id hid id' hid' heq
    obtain ⟨e, he, rfl⟩ := List.mem_map.1 hid
    exact hfree e he (heq.trans (List.mem_singleton.1 hid'))
  · intro e he
    exact List.mem_append_left _ (h.pushed e he)

theorem World.Booked.step (h : w.Booked) {turn : Publisher × Outcome}
    (hactive : ∀ k, (w.publishers i).call = some k → k.number + 1 = (w.publishers i).calls)
    (heffect : Effect w.remote (w.publishers i) turn) : (w.after i turn).Booked := by
  have hfree : ∀ k, (w.publishers i).call = some k → ∀ e ∈ w.returned, e.1 ≠ (i, k.number) :=
    h.active i
  have hnew : ∀ e ∈ w.returned, e.1 ≠ (i, (w.publishers i).calls) := by
    intro e he heq
    have hlt := h.number e he
    rw [heq] at hlt
    exact lt_irrefl _ hlt
  cases heffect with
  | @goes p' k k' hk hk' hnumber hcalls =>
    refine h.quiet hcalls.ge fun k'' hk'' => ?_
    rw [hk'] at hk''
    cases hk''
    rw [hnumber]
    exact hfree k hk
  | @starts p' k' hk' hnumber hcalls =>
    refine h.quiet (by omega) fun k'' hk'' => ?_
    rw [hk'] at hk''
    cases hk''
    rw [hnumber]
    exact hnew
  | @rests p' hnone hcalls =>
    refine h.quiet hcalls.ge fun k hk => ?_
    rw [hnone] at hk
    cases hk
  | refuses release err hnone hcalls =>
    exact h.returned (by omega) (by omega) hnone hnew release (some err)
  | @fails p' k err hk hnone hcalls =>
    have hnumber := hactive k hk
    exact h.returned hcalls.ge (by omega) hnone (hfree k hk) k.release (some err)
  | @confirms p' k c hk hpc hc hhead hnone hcalls =>
    have hnumber := hactive k hk
    exact h.returned hcalls.ge (by omega) hnone (hfree k hk) k.release none
  | @advances p' k c hk hpc hc hff hmoved hnone hcalls =>
    have hnumber := hactive k hk
    have hreturned := h.returned hcalls.ge (show k.number < p'.calls by omega) hnone
      (hfree k hk) k.release none
    refine ⟨hreturned.number, hreturned.active, hreturned.distinct, ?_⟩
    intro e he
    rcases List.mem_append.1 he with he | he
    · exact hreturned.pushed e he
    · cases List.mem_singleton.1 he
      exact List.mem_append_right _ List.mem_cons_self

end

/-! ## The branch in a run -/

/-- The package file that is on the branch. -/
def World.file (w : World) (path : Str) : Str := (w.remote.tree path).getD []

/-- The lines of the releases that calls pushed to a package file. -/
def World.added (F : Format) (w : World) (path : Str) : List Str :=
  (w.pushed.filter fun e => jsonlPath e.2.id = path).map fun e => F.write e.2

/-- The line of a release is on the branch, in a file without two lines of one version. -/
def Listed (F : Format) (w : World) (release : Release) : Prop :=
  F.write release ∈ w.lines (jsonlPath release.id) ∧
    (F.versions (w.file (jsonlPath release.id))).Nodup

/-- What is on the branch, relative to the beginning of the run. -/
structure World.Kept (F : Format) (w₀ w : World) : Prop where
  publisher : ∀ i, (w.publishers i).Inv F w.remote
  listed : ∀ e ∈ w.returned, e.2.2 = none → Listed F w e.2.1
  lines : ∀ path, w.lines path = w₀.lines path ++ w.added F path
  versions : ∀ path, w.file path = w₀.file path ∨ (F.versions (w.file path)).Nodup

section

variable {F : Format} {remote : History} {w₀ w : World} {i : ℕ} {turn : Publisher × Outcome}

/-- A push that moves the branch puts one commit on top of it. -/
theorem Phase.advances {k : Call} {c : Clone} (h : Phase F remote k c .push)
    (hff : remote <:+ c.head) (hnew : c.head ≠ remote) :
    ∃ (blob : Str) (stamp : ℕ), Extended F remote.tree k.release blob ∧
      c.head = ⟨Function.update remote.tree k.path (some blob), stamp⟩ :: remote := by
  obtain ⟨blob, base, stamp, hbase, hmore, hhead⟩ := h
  rw [hhead] at hff hnew
  rcases List.suffix_cons_iff.1 hff with heq | hle
  · exact absurd heq.symm hnew
  · cases hle.eq_of_length_le hbase.length_le
    exact ⟨blob, stamp, hmore, hhead⟩

/-- The branch does not move. -/
theorem World.Kept.of_remote {w' : World} (h : World.Kept F w₀ w) (hremote : w'.remote = w.remote)
    (hpushed : w'.pushed = w.pushed) (hpublisher : ∀ j, (w'.publishers j).Inv F w'.remote)
    (hlisted : ∀ e ∈ w'.returned, e.2.2 = none → e ∈ w.returned ∨ Listed F w e.2.1) :
    World.Kept F w₀ w' where
  publisher := hpublisher
  listed e he hok := by
    have hsame : Listed F w' e.2.1 ↔ Listed F w e.2.1 := by
      rw [Listed, Listed, World.lines, World.lines, World.file, World.file, hremote]
    rw [hsame]
    rcases hlisted e he hok with hold | hnew
    · exact h.listed e hold hok
    · exact hnew
  lines path := by
    rw [World.lines, World.added, hremote, hpushed]
    exact h.lines path
  versions path := by
    rw [World.file, hremote]
    exact h.versions path

theorem World.Kept.quiet {p : Publisher} (h : World.Kept F w₀ w) (hp : p.Inv F w.remote) :
    World.Kept F w₀ (w.after i (p, .quiet)) := by
  refine h.of_remote rfl rfl (fun j => ?_) fun e he hok => .inl he
  by_cases hj : j = i
  · simpa only [World.after, hj, Function.update_self] using hp
  · simpa only [World.after, Function.update_of_ne hj] using h.publisher j

theorem World.Kept.returned {p : Publisher} (h : World.Kept F w₀ w) (hp : p.Inv F w.remote)
    (number : ℕ) {release : Release} {err : Option PublishErr}
    (hok : err = none → Listed F w release) :
    World.Kept F w₀ (w.after i (p, .returned number release err)) := by
  refine h.of_remote rfl rfl (h.quiet (i := i) hp).publisher fun e he hnone => ?_
  rcases List.mem_append.1 he with he | he
  · exact .inl he
  · cases List.mem_singleton.1 he
    exact .inr (hok hnone)

/-- A push that moves the branch. -/
theorem World.Kept.advanced {p : Publisher} {k : Call} {c : Clone} (h : World.Kept F w₀ w)
    (hp : p.Inv F w.remote) (hphase : Phase F w.remote k c .push) (hff : w.remote <:+ c.head)
    (hnew : c.head ≠ w.remote) :
    World.Kept F w₀ (w.after i (p, .advanced k.number k.release c.head)) := by
  obtain ⟨blob, stamp, hmore, hhead⟩ := hphase.advances hff hnew
  set w' := w.after i (p, .advanced k.number k.release c.head) with hw'
  have hremote : w'.remote = c.head := rfl
  have htree : w'.remote.tree = Function.update w.remote.tree k.path (some blob) := by
    rw [hremote, hhead]
    rfl
  have hfile : w'.file k.path = blob := by
    rw [World.file, htree, Function.update_self, Option.getD_some]
  have hother : ∀ path, path ≠ k.path → w'.file path = w.file path := by
    intro path hpath
    rw [World.file, htree, Function.update_of_ne hpath, World.file]
  have hline : w'.lines k.path = w.lines k.path ++ [F.write k.release] := by
    rw [World.lines, ← World.file, hfile]
    exact hmore.lines
  have hlines : ∀ path, path ≠ k.path → w'.lines path = w.lines path := by
    intro path hpath
    rw [World.lines, ← World.file, hother path hpath, World.file, World.lines]
  have hpushed : w'.pushed = w.pushed ++ [((i, k.number), k.release)] := rfl
  have hmem : F.write k.release ∈ w'.lines k.path := by
    rw [hline]
    exact List.mem_append_right _ List.mem_cons_self
  constructor
  · intro j
    exact ((h.quiet (i := i) hp).publisher j).mono hff
  · intro e he hok
    rcases List.mem_append.1 he with he | he
    · obtain ⟨hin, hnodup⟩ := h.listed e he hok
      by_cases hpath : jsonlPath e.2.1.id = k.path
      · rw [hpath] at hin
        refine ⟨?_, ?_⟩
        · rw [hpath, hline]
          exact List.mem_append_left _ hin
        · rw [hpath, hfile]
          exact hmore.versions
      · refine ⟨?_, ?_⟩
        · rw [hlines _ hpath]
          exact hin
        · rw [hother _ hpath]
          exact hnodup
    · cases List.mem_singleton.1 he
      refine ⟨hmem, ?_⟩
      have hversions := hmore.versions
      rwa [← hfile] at hversions
  · intro path
    rw [World.added, hpushed, List.filter_append, List.map_append, ← World.added]
    by_cases hpath : path = k.path
    · subst hpath
      rw [hline, h.lines, List.append_assoc]
      simp [Call.path]
    · have hne : jsonlPath k.release.id ≠ path := fun heq => hpath heq.symm
      rw [hlines path hpath, h.lines]
      simp [hne]
  · intro path
    by_cases hpath : path = k.path
    · subst hpath
      rw [hfile]
      exact .inr hmore.versions
    · rw [hother path hpath]
      exact h.versions path

/-- A turn keeps what is on the branch. -/
theorem World.Kept.step (hF : F.Lawful) (h : World.Kept F w₀ w) {event : Event}
    (hturn : Turn F w.remote (w.publishers i) event turn)
    (hcareful : Careful F (w.publishers i) event) : World.Kept F w₀ (w.after i turn) := by
  have hp := hturn.inv hF hcareful (h.publisher i)
  cases hturn.effect with
  | goes hk hk' hnumber hcalls => exact h.quiet hp
  | starts hk hnumber hcalls => exact h.quiet hp
  | rests hnone hcalls => exact h.quiet hp
  | refuses release err hnone hcalls => exact h.returned hp _ fun herr => nomatch herr
  | fails err hk hnone hcalls => exact h.returned hp _ fun herr => nomatch herr
  | @confirms p' k c hk hpc hc hhead hnone hcalls =>
    refine h.returned hp _ fun _ => ?_
    obtain ⟨blob, base, stamp, hbase, hmore, hcommit⟩ : Phase F w.remote k c .push :=
      hpc ▸ (h.publisher i).phase k c hk hc
    have hfile : w.file k.path = blob := by
      rw [World.file, ← hhead, hcommit]
      change (Function.update base.tree k.path (some blob) k.path).getD [] = blob
      rw [Function.update_self, Option.getD_some]
    refine ⟨?_, ?_⟩
    · change F.write k.release ∈ Lib.lines newline (w.file k.path)
      rw [hfile, hmore.lines]
      exact List.mem_append_right _ List.mem_cons_self
    · change (F.versions (w.file k.path)).Nodup
      rw [hfile]
      exact hmore.versions
  | @advances p' k c hk hpc hc hff hmoved hnone hcalls =>
    have hphase : Phase F w.remote k c .push := hpc ▸ (h.publisher i).phase k c hk hc
    exact h.advanced hp hphase hff hmoved

/-- The invariant along a run. -/
theorem World.Reaches.kept (hF : F.Lawful) (hidle : w₀.Idle)
    (h : World.Reaches F (Careful F) w₀ w) : World.Kept F w₀ w ∧ w.Booked := by
  induction h with
  | refl =>
    refine ⟨⟨fun j => .idle (hidle.clone j) (hidle.call j), ?_, ?_, fun path => .inl rfl⟩, ?_⟩
    · intro e he
      rw [hidle.returned] at he
      cases he
    · intro path
      rw [World.added, hidle.pushed]
      exact (List.append_nil _).symm
    · constructor
      · simp [hidle.returned]
      · simp [hidle.returned]
      · simp [hidle.returned]
      · simp [hidle.pushed]
  | tail hrun hstep ih =>
    obtain ⟨i, event, turn, hturn, hcareful, rfl⟩ := hstep
    exact ⟨ih.1.step hF hturn hcareful, ih.2.step (ih.1.publisher i).number hturn.effect⟩

end

/-! ## A publisher on its own -/

/-- Releases written as that many strokes as their number. -/
def strokes : Format where
  write release := List.replicate (Encodable.encode release) 124
  read line := Encodable.decode line.length
  blank _ := false

theorem strokes_lawful : strokes.Lawful where
  newline release h := absurd (List.eq_of_mem_replicate h) (by decide)
  blank release := rfl
  read release := by simp [strokes]

/-- The world with a publisher as it is given. -/
def World.put (w : World) (i : ℕ) (p : Publisher) : World :=
  { w with publishers := Function.update w.publishers i p }

section

variable {F : Format} {C : Publisher → Event → Prop} {w : World} {p p' : Publisher} {event : Event}

theorem World.put_self {i : ℕ} (h : w.publishers i = p) : w.put i p = w := by
  rw [World.put, ← h, Function.update_eq_self]

theorem Turn.put_quiet (i : ℕ) (h : Turn F w.remote p event (p', .quiet)) (hcond : C p event) :
    World.Reaches F C (w.put i p) (w.put i p') :=
  .single ⟨i, event, _, by simpa [World.put] using h, by simpa [World.put] using hcond,
    by simp [World.after, World.put]⟩

theorem Turn.put_advanced (i : ℕ) {number : ℕ} {release : Release} {head : History}
    (h : Turn F w.remote p event (p', .advanced number release head)) (hcond : C p event) :
    World.Reaches F C (w.put i p)
      (World.put ⟨head, w.publishers, w.returned ++ [((i, number), release, none)],
        w.pushed ++ [((i, number), release)]⟩ i p') :=
  .single ⟨i, event, _, by simpa [World.put] using h, by simpa [World.put] using hcond,
    by simp [World.after, World.put]⟩

end

/-- The world of one publisher. -/
def solo (remote : History) (returned : List ((ℕ × ℕ) × Release × Option PublishErr))
    (pushed : List ((ℕ × ℕ) × Release)) (p : Publisher) : World :=
  ⟨remote, Function.update (fun _ => ⟨none, none, 0⟩) 0 p, returned, pushed⟩

/-- Nothing was ever published. -/
def blankWorld : World := solo [] [] [] ⟨none, none, 0⟩

theorem blankWorld_idle : blankWorld.Idle where
  call i := by
    simp [blankWorld, solo]
  clone i c hc := by
    simp [blankWorld, solo] at hc
  returned := rfl
  pushed := rfl

section

variable {F : Format} {C : Publisher → Event → Prop} {remote : History} {p p' : Publisher}
  {returned : List ((ℕ × ℕ) × Release × Option PublishErr)} {pushed : List ((ℕ × ℕ) × Release)}
  {event : Event}

theorem Turn.solo_quiet (h : Turn F remote p event (p', .quiet)) (hcond : C p event) :
    World.Reaches F C (solo remote returned pushed p) (solo remote returned pushed p') :=
  @Turn.put_quiet F C ⟨remote, _, returned, pushed⟩ _ _ _ 0 h hcond

theorem Turn.solo_returned {number : ℕ} {release : Release} {err : Option PublishErr}
    (h : Turn F remote p event (p', .returned number release err)) (hcond : C p event) :
    World.Reaches F C (solo remote returned pushed p)
      (solo remote (returned ++ [((0, number), release, err)]) pushed p') :=
  .single ⟨0, event, _, h, hcond, by simp [World.after, solo]⟩

theorem Turn.solo_advanced {number : ℕ} {release : Release} {head : History}
    (h : Turn F remote p event (p', .advanced number release head)) (hcond : C p event) :
    World.Reaches F C (solo remote returned pushed p)
      (solo head (returned ++ [((0, number), release, none)]) (pushed ++ [((0, number), release)])
        p') :=
  @Turn.put_advanced F C ⟨remote, _, returned, pushed⟩ _ _ _ 0 _ _ _ h hcond

theorem World.Reaches.mono {C' : Publisher → Event → Prop} {w w' : World}
    (h : World.Reaches F C w w') (himp : ∀ p event, C p event → C' p event) :
    World.Reaches F C' w w' :=
  Relation.ReflTransGen.mono (fun _ _ ⟨i, event, turn, hturn, hcond, heq⟩ =>
    ⟨i, event, turn, hturn, himp _ _ hcond, heq⟩) _ _ h

/-- A clone of a branch that is not there, with files that are staged. -/
def bare (files : Tree) : Clone := ⟨[], false, [], files, files⟩

theorem bare_clean (files : Tree) : (bare files).clean = bare files := by
  have hwork : (fun path => if (files path).isSome then files path else none) = files := by
    funext path
    cases files path <;> rfl
  rw [Clone.clean, bare, hwork]

theorem bare_append_add (files : Tree) (path text : Str) :
    ((bare files).append path text).add path =
      bare (Function.update files path (some ((files path).getD [] ++ text))) := by
  simp [Clone.add, Clone.append, bare]

/-- A call that keeps its clone and finds no version there appends its line and stages it. -/
theorem stages {k : Call} (files : Tree) {calls : ℕ} (hpc : k.pc = .branch 0)
    (hfailed : k.failed = none) (hlookup : lookup F (bare files) k.release = none)
    (hcareful : ∀ p event, Careful F p event → C p event)
    (hkeep : C ⟨some (bare files), some k, calls⟩ .keep)
    (hterminated : Terminated newline ((files k.path).getD [])) :
    World.Reaches F C (solo [] returned pushed ⟨some (bare files), some k, calls⟩)
      (solo [] returned pushed
        ⟨some (bare (Function.update files k.path
            (some ((files k.path).getD [] ++ (F.write k.release ++ [newline]))))),
          some { k with dirtied := true, pc := .commit }, calls⟩) := by
  have hclean : Turn F [] ⟨some (bare files), some (k.goto (.clean 0)), calls⟩ .clean
      (⟨some (bare files), some { k with dirtied := false, pc := .read }, calls⟩, .quiet) := by
    have h : Turn F [] _ _ _ := .clean (a := 0)
      (p := ⟨some (bare files), some (k.goto (.clean 0)), calls⟩) rfl rfl rfl
    simpa only [Publisher.freshened, Call.goto, hfailed, bare_clean] using h
  have hread : Turn F [] ⟨some (bare files), some { k with dirtied := false, pc := .read }, calls⟩
      .read (⟨some (bare files), some { k with dirtied := false, pc := .append }, calls⟩,
        .quiet) := by
    have h : Turn F [] _ _ _ := .read
      (p := ⟨some (bare files), some { k with dirtied := false, pc := .read }, calls⟩) rfl rfl rfl
    simpa only [hlookup, Call.goto] using h
  refine .trans (Turn.solo_quiet (.keep rfl hpc rfl rfl rfl rfl) hkeep) ?_
  refine .trans (Turn.solo_quiet hclean (hcareful _ _ trivial)) ?_
  refine .trans (Turn.solo_quiet hread (hcareful _ _ trivial)) ?_
  refine .trans (Turn.solo_quiet (.append rfl rfl rfl
    (List.prefix_refl _)) (hcareful _ _ ?_)) ?_
  · intro k' c' hk' hc'
    cases hk'
    cases hc'
    exact ⟨rfl, hterminated⟩
  refine .trans (Turn.solo_quiet (.detect rfl rfl) (hcareful _ _ trivial)) ?_
  rw [← bare_append_add]
  refine .trans (Turn.solo_quiet (.add rfl rfl rfl ?_) (hcareful _ _ trivial)) .refl
  simp [Clone.append, Call.path, Call.goto]

/-- The lookup of another version in a file with one line. -/
theorem lookup_line (hF : F.Lawful) {c : Clone} {old new : Release}
    (hfile : c.work (jsonlPath new.id) = some (F.write old ++ [newline])) (hid : old.id = new.id)
    (hversion : old.version ≠ new.version) : lookup F c new = none := by
  have hparse : parsePkg F new.id (F.write old ++ [newline]) = some [old] := by
    simp [parsePkg, lines_line (hF.newline old), parseLines, parseRel, hF.blank, hF.read,
      Option.filter, hid]
  unfold lookup
  rw [hfile]
  simp only [hparse]
  exact if_neg (by simpa using hversion)

end

section

variable {F : Format} {w : World}

/-- A call that finds no version in the files of its clone appends its line and commits it. -/
theorem commits (i : ℕ) {k : Call} {c : Clone} {calls : ℕ} (stamp : ℕ)
    (hlookup : lookup F c k.release = none)
    (hterminated : Terminated newline ((c.work k.path).getD []))
    (hchanges : ((c.append k.path (F.write k.release ++ [newline])).add k.path).index ≠ c.head.tree) :
    World.Reaches F (Careful F) (w.put i ⟨some c, some { k with dirtied := false, pc := .read }, calls⟩)
      (w.put i ⟨some (((c.append k.path (F.write k.release ++ [newline])).add k.path).commit stamp),
        some { k with dirtied := true, pc := .push }, calls⟩) := by
  have hread : Turn F w.remote ⟨some c, some { k with dirtied := false, pc := .read }, calls⟩ .read
      (⟨some c, some { k with dirtied := false, pc := .append }, calls⟩, .quiet) := by
    have h : Turn F w.remote _ _ _ := .read
      (p := ⟨some c, some { k with dirtied := false, pc := .read }, calls⟩) rfl rfl rfl
    simpa only [hlookup, Call.goto] using h
  refine .trans (Turn.put_quiet i hread trivial) ?_
  refine .trans (Turn.put_quiet i (.append rfl rfl rfl (List.prefix_refl _)) ?_) ?_
  · intro k' c' hk' hc'
    cases hk'
    cases hc'
    exact ⟨rfl, hterminated⟩
  have hcommit : Turn F w.remote
      ⟨some ((c.append k.path (F.write k.release ++ [newline])).add k.path),
        some { k with dirtied := true, pc := .commit }, calls⟩ (.commit stamp)
      (⟨some (((c.append k.path (F.write k.release ++ [newline])).add k.path).commit stamp),
        some { k with dirtied := true, pc := .push }, calls⟩, .quiet) :=
    .commit (k := { k with dirtied := true, pc := .commit }) stamp rfl rfl rfl hchanges
  refine .trans (Turn.put_quiet i (.detect rfl rfl) trivial) ?_
  refine .trans (Turn.put_quiet i (.add rfl rfl rfl ?_) trivial) ?_
  · simp [Clone.append, Call.path, Call.goto]
  exact Turn.put_quiet i hcommit trivial

/-- What a publisher has in a clone of a branch that is not there when it has added its line. -/
def loneFiles (F : Format) (release : Release) : Tree :=
  Function.update (fun _ => none) (jsonlPath release.id) (some (F.write release ++ [newline]))

/-- The first call of a publisher, when no branch is there, gets as far as its push. -/
theorem commits_first (i stamp : ℕ) (release : Release) (hremote : w.remote = []) :
    World.Reaches F (Careful F) (w.put i ⟨none, none, 0⟩)
      (w.put i ⟨some ((bare (loneFiles F release)).commit stamp),
        some { Call.start 0 release with dirtied := true, pc := .push }, 1⟩) := by
  have hclone : cloned w.remote = bare fun _ => none := by rw [hremote]; rfl
  have hkept : Turn F w.remote
      ⟨some (bare fun _ => none), some { Call.start 0 release with pc := .branch 0 }, 1⟩ .keep
      (⟨some (bare fun _ => none), some { Call.start 0 release with pc := .clean 0 }, 1⟩, .quiet) :=
    .keep (k := { Call.start 0 release with pc := .branch 0 }) (a := 0) rfl rfl rfl rfl rfl rfl
  have hclean : Turn F w.remote
      ⟨some (bare fun _ => none), some { Call.start 0 release with pc := .clean 0 }, 1⟩ .clean
      (⟨some (bare fun _ => none), some { Call.start 0 release with pc := .read }, 1⟩, .quiet) :=
    .clean (p := ⟨some (bare fun _ => none), some { Call.start 0 release with pc := .clean 0 }, 1⟩)
      (a := 0) rfl rfl rfl
  have hcloned : Turn F w.remote ⟨none, some (Call.start 0 release), 1⟩ .clone
      (⟨some (bare fun _ => none), some { Call.start 0 release with pc := .branch 0 }, 1⟩, .quiet) := by
    rw [← hclone]
    exact .clone (k := Call.start 0 release) (a := 0) rfl rfl (by decide) (.inr rfl)
  refine .trans (Turn.put_quiet i (.begin release rfl) trivial) ?_
  refine .trans (Turn.put_quiet i hcloned trivial) ?_
  refine .trans (Turn.put_quiet i hkept ?_) (.trans (Turn.put_quiet i hclean trivial) ?_)
  · intro c hc
    cases hc
    rfl
  have hcommits := @commits F w i (Call.start 0 release) (bare fun _ => none) 1 stamp rfl (.inl rfl)
  rw [bare_append_add] at hcommits
  refine hcommits fun h => ?_
  have hpath := congrFun h (jsonlPath release.id)
  simp [bare, History.tree, Call.path, Call.start] at hpath

end

/-- The first release of a package, and the next. -/
def firstRelease : Release := ⟨⟨str "core", str "spum"⟩, ⟨1, 0, 0⟩, []⟩
def nextRelease : Release := ⟨⟨str "core", str "spum"⟩, ⟨1, 1, 0⟩, []⟩

/-- A call of the first publication, whose clone is kept. -/
def firstCall : Call := { Call.start 0 firstRelease with pc := .branch 0 }

/-- The files of its clone when it commits. -/
def firstFiles : Tree :=
  Function.update (fun _ => none) firstCall.path (some (strokes.write firstRelease ++ [newline]))

theorem firstCall_stages :
    World.Reaches strokes (Careful strokes) blankWorld
      (solo [] [] []
        ⟨some (bare firstFiles), some { firstCall with dirtied := true, pc := .commit }, 1⟩) := by
  refine .trans (Turn.solo_quiet (.begin firstRelease rfl) trivial) ?_
  refine .trans (Turn.solo_quiet (.clone (a := 0) rfl rfl (by decide) (.inr rfl)) trivial) ?_
  refine stages (k := firstCall) _ rfl rfl rfl (fun _ _ h => h) ?_ (.inl rfl)
  intro c hc
  cases hc
  rfl

section

variable (F : Format)

/-- A publisher that was alone and has committed its line. -/
def pushing (release : Release) (stamp : ℕ) : Publisher :=
  ⟨some ((bare (loneFiles F release)).commit stamp),
    some { Call.start 0 release with dirtied := true, pc := .push }, 1⟩

/-- The branch with the line of the first publisher. -/
def onlyFirst : History := [⟨loneFiles F firstRelease, 0⟩]

/-- The clone of the second publisher after its push was rejected and it has followed the branch. -/
def followed : Clone :=
  ((((bare (loneFiles F nextRelease)).commit 1).fetch (onlyFirst F) true).checkout).clean

/-- That clone with the line of the second publisher committed. -/
def appended : Clone :=
  (((followed F).append firstCall.path (F.write nextRelease ++ [newline])).add
    firstCall.path).commit 2

theorem onlyFirst_file :
    (onlyFirst F).tree firstCall.path = some (F.write firstRelease ++ [newline]) := by
  change loneFiles F firstRelease (jsonlPath firstRelease.id) = _
  rw [loneFiles, Function.update_self]

theorem followed_file :
    (followed F).work firstCall.path = some (F.write firstRelease ++ [newline]) := by
  rw [followed, (Clone.clean_checkout _).2]
  exact onlyFirst_file F

theorem appended_file : (appended F).index firstCall.path =
    some (F.write firstRelease ++ [newline] ++ (F.write nextRelease ++ [newline])) := by
  simp only [appended, Clone.commit, Clone.add, Clone.append, Function.update_self, followed_file,
    Option.getD_some]

variable {F} {w : World}

/-- A rejected push is followed by another attempt, which appends to the branch as it is then. -/
theorem rejected_goes_on (hF : F.Lawful) (hremote : w.remote = onlyFirst F) :
    World.Reaches F (Careful F) (w.put 1 (pushing F nextRelease 1))
      (World.put ⟨(appended F).head, w.publishers, w.returned ++ [((1, 0), nextRelease, none)],
        w.pushed ++ [((1, 0), nextRelease)]⟩ 1 ⟨some (appended F), none, 1⟩) := by
  let k : Call := { Call.start 0 nextRelease with attempt := 1 }
  let c : Clone := (bare (loneFiles F nextRelease)).commit 1
  have hrejected : Turn F w.remote (pushing F nextRelease 1) .pushRejected
      (⟨some c, some { k with dirtied := true, pc := .fetch 0 }, 1⟩, .quiet) :=
    .pushRejected (p := pushing F nextRelease 1) rfl rfl
  have hfetch : Turn F w.remote ⟨some c, some { k with dirtied := true, pc := .fetch 0 }, 1⟩
      (.fetch true)
      (⟨some (c.fetch (onlyFirst F) true), some { k with dirtied := true, pc := .branch 0 }, 1⟩,
        .quiet) := by
    rw [hremote]
    exact .fetch (k := { k with dirtied := true, pc := .fetch 0 }) true rfl rfl rfl
  have hcheckout : Turn F w.remote
      ⟨some (c.fetch (onlyFirst F) true), some { k with dirtied := true, pc := .branch 0 }, 1⟩
      .checkout (⟨some (c.fetch (onlyFirst F) true).checkout,
        some { k with dirtied := true, pc := .clean 0 }, 1⟩, .quiet) :=
    .checkout (k := { k with dirtied := true, pc := .branch 0 }) (a := 0) rfl rfl rfl rfl
      (List.cons_ne_nil _ _)
  have hclean : Turn F w.remote
      ⟨some (c.fetch (onlyFirst F) true).checkout,
        some { k with dirtied := true, pc := .clean 0 }, 1⟩
      .clean (⟨some (followed F), some { k with dirtied := false, pc := .read }, 1⟩, .quiet) :=
    .clean (p := ⟨some (c.fetch (onlyFirst F) true).checkout,
      some { k with dirtied := true, pc := .clean 0 }, 1⟩) (a := 0) rfl rfl rfl
  have hpush : Turn F w.remote
      ⟨some (appended F), some { k with dirtied := true, pc := .push }, 1⟩ .push
      (⟨some (appended F), none, 1⟩, .advanced 0 nextRelease (appended F).head) := by
    rw [hremote]
    exact .pushAdvances (k := { k with dirtied := true, pc := .push }) rfl rfl rfl
      (List.suffix_cons _ _) (List.cons_ne_self _ _)
  refine .trans (Turn.put_quiet 1 hrejected trivial) ?_
  refine .trans (Turn.put_quiet 1 hfetch trivial) ?_
  refine .trans (Turn.put_quiet 1 hcheckout trivial) (.trans (Turn.put_quiet 1 hclean trivial) ?_)
  refine .trans (@commits F w 1 k (followed F) 1 2
    (lookup_line hF (followed_file F) rfl (by decide)) ?_ ?_)
    (Turn.put_advanced 1 hpush trivial)
  · rw [show k.path = firstCall.path from rfl, followed_file]
    exact terminated_append _
  · intro h
    have hlength := congrArg (fun text => (text.getD []).length)
      ((appended_file F).symm.trans ((congrFun h firstCall.path).trans (onlyFirst_file F)))
    simp only [Option.getD_some, List.length_append, List.length_singleton] at hlength
    omega

/-- Two publishers clone a branch that is not there; the push of the second one is rejected, and it
goes through behind the line of the first. -/
theorem rejected_publishes (hF : F.Lawful) :
    ∃ w, World.Reaches F (Careful F) blankWorld w ∧ w.remote = (appended F).head ∧
      w.returned = [((0, 0), firstRelease, none), ((1, 0), nextRelease, none)] := by
  have h₀ : World.Reaches F (Careful F) blankWorld
      (blankWorld.put 0 (pushing F firstRelease 0)) := by
    have h := @commits_first F blankWorld 0 0 firstRelease rfl
    rwa [World.put_self (by simp [blankWorld, solo])] at h
  have h₁ : World.Reaches F (Careful F) (blankWorld.put 0 (pushing F firstRelease 0))
      ((blankWorld.put 0 (pushing F firstRelease 0)).put 1 (pushing F nextRelease 1)) := by
    have h := @commits_first F (blankWorld.put 0 (pushing F firstRelease 0)) 1 1 nextRelease rfl
    rwa [World.put_self (by simp [World.put, blankWorld, solo])] at h
  have hpush : Turn F [] (pushing F firstRelease 0) .push
      ({ pushing F firstRelease 0 with call := none }, .advanced 0 firstRelease (onlyFirst F)) :=
    .pushAdvances (p := pushing F firstRelease 0) rfl rfl rfl List.nil_suffix (List.cons_ne_nil _ _)
  have h₂ := @Turn.put_advanced F (Careful F)
    ((blankWorld.put 0 (pushing F firstRelease 0)).put 1 (pushing F nextRelease 1)) _ _ _ 0 _ _ _
    hpush trivial
  rw [World.put_self (by simp [World.put])] at h₂
  have h₃ := @rejected_goes_on F _ hF (show World.remote (World.put ⟨onlyFirst F,
    ((blankWorld.put 0 (pushing F firstRelease 0)).put 1 (pushing F nextRelease 1)).publishers,
    [((0, 0), firstRelease, none)], [((0, 0), firstRelease)]⟩ 0
    { pushing F firstRelease 0 with call := none }) = onlyFirst F from rfl)
  rw [World.put_self (by simp [World.put])] at h₃
  exact ⟨_, h₀.trans (h₁.trans (.trans h₂ h₃)), rfl, rfl⟩

end

/-! ## The transaction -/

/-- What a run may do to the branch: whoever returns without an error has its line there
once, a version stands once in a file that had none twice, and what is added are the lines
of calls that return without an error. -/
structure World.Transactional (F : Format) (w₀ w : World) : Prop where
  once : ∀ id release, (id, release, none) ∈ w.returned →
    (w.lines (jsonlPath release.id)).count (F.write release) = 1
  distinct : ∀ path, (F.versions (w₀.file path)).Nodup → (F.versions (w.file path)).Nodup
  lines : ∀ path, w.lines path = w₀.lines path ++ w.added F path
  pushed : ∀ id release, (id, release) ∈ w.pushed → (id, release, none) ∈ w.returned
  failed : ∀ id release err, (id, release, some err) ∈ w.returned → ∀ other, (id, other) ∉ w.pushed

section

variable {F : Format} {w₀ w : World}

theorem World.Kept.transactional (hF : F.Lawful) (h : World.Kept F w₀ w) (hbooked : w.Booked) :
    World.Transactional F w₀ w where
  once id release hok := by
    obtain ⟨hmem, hnodup⟩ := h.listed _ hok rfl
    refine count_eq_one_of_nodup (f := F.version) (b := release.version) hnodup ?_ hmem
    rw [Format.version, hF.blank, hF.read]
    rfl
  distinct path hnodup := by
    rcases h.versions path with heq | hnew
    · rwa [heq]
    · exact hnew
  lines := h.lines
  pushed id release hpushed := hbooked.pushed _ hpushed
  failed id release err herr other hpushed := by
    have hsame := List.inj_on_of_nodup_map hbooked.distinct herr (hbooked.pushed _ hpushed) rfl
    cases hsame

/-- Lines that are on the branch stay there. -/
theorem World.Kept.lines_prefix {w₁ : World} (h₁ : World.Kept F w₀ w₁)
    (h : World.Kept F w₀ w) {more : List ((ℕ × ℕ) × Release)} (hmore : w.pushed = w₁.pushed ++ more)
    (path : Str) : w₁.lines path <+: w.lines path := by
  rw [h₁.lines, h.lines, World.added, World.added, hmore, List.filter_append, List.map_append,
    ← List.append_assoc]
  exact List.prefix_append _ _

theorem World.Reaches.pushed {C : Publisher → Event → Prop} {w₁ : World}
    (h : World.Reaches F C w₁ w) : w₁.pushed <+: w.pushed := by
  induction h with
  | refl => exact List.prefix_refl _
  | tail hrun hstep ih =>
    obtain ⟨i, event, turn, hturn, hcond, rfl⟩ := hstep
    refine ih.trans ?_
    rcases turn with ⟨p', _ | _ | _⟩
    · exact List.prefix_refl _
    · exact List.prefix_refl _
    · exact List.prefix_append _ _

/-- In a run whose commands meet the condition, a publication is a transaction, from the
state it began in and from every state on the way. -/
theorem publish_transactional {w₁ : World} (hF : F.Lawful) (hidle : w₀.Idle)
    (h₁ : World.Reaches F (Careful F) w₀ w₁) (h : World.Reaches F (Careful F) w₁ w) :
    World.Transactional F w₀ w ∧ ∀ path, w₁.lines path <+: w.lines path := by
  obtain ⟨hkept₁, hbooked₁⟩ := h₁.kept hF hidle
  obtain ⟨hkept, hbooked⟩ := World.Reaches.kept hF hidle (h₁.trans h)
  obtain ⟨more, hmore⟩ := h.pushed
  exact ⟨hkept.transactional hF hbooked, hkept₁.lines_prefix hkept hmore.symm⟩

end

theorem publish_transactional_rejected :
    ∃ w, w.returned = [((0, 0), firstRelease, none), ((1, 0), nextRelease, none)] ∧
      w.lines firstCall.path = [strokes.write firstRelease, strokes.write nextRelease] ∧
      (World.Transactional strokes blankWorld w ∧
        ∀ path, blankWorld.lines path <+: w.lines path) := by
  obtain ⟨w, hrun, hremote, hreturned⟩ := rejected_publishes strokes_lawful
  refine ⟨w, hreturned, ?_, publish_transactional strokes_lawful blankWorld_idle .refl hrun⟩
  have hfile : w.remote.tree firstCall.path = some (strokes.write firstRelease ++ [newline] ++
      (strokes.write nextRelease ++ [newline])) := by
    rw [hremote]
    exact appended_file strokes
  rw [World.lines, hfile, Option.getD_some, lines_append (terminated_append _),
    lines_line (strokes_lawful.newline firstRelease),
    lines_line (strokes_lawful.newline nextRelease)]
  rfl

/-- The first call when its commit has failed, and the call of the next publication. -/
def failedCall : Call :=
  { firstCall with dirtied := true, failed := some (.git "git commit"), pc := .fetch 0 }
def nextCall : Call := { Call.start 1 nextRelease with pc := .branch 0 }

/-- The files of the clone when the next call commits. -/
def nextFiles : Tree :=
  Function.update firstFiles nextCall.path (some ((firstFiles nextCall.path).getD [] ++
    (strokes.write nextRelease ++ [newline])))

theorem firstFiles_path :
    firstFiles nextCall.path = some (strokes.write firstRelease ++ [newline]) := by
  rw [firstFiles, show nextCall.path = firstCall.path from rfl, Function.update_self]

theorem nextCall_lookup : lookup strokes (bare firstFiles) nextRelease = none :=
  lookup_line strokes_lawful firstFiles_path rfl (by decide)

/-- The cleanup after the failed commit keeps what is staged. -/
theorem failedCall_cleans :
    World.Reaches strokes (fun _ _ => True) blankWorld
      (solo [] [((0, 0), firstRelease, some (.git "git commit"))] []
        ⟨some (bare firstFiles), none, 1⟩) := by
  have hfailed : Turn strokes []
      ⟨some (bare firstFiles), some { firstCall with dirtied := true, pc := .commit }, 1⟩
      .commitFailed (⟨some (bare firstFiles), some failedCall, 1⟩, .quiet) :=
    .commitFailed (k := { firstCall with dirtied := true, pc := .commit }) (c := bare firstFiles)
      rfl rfl rfl ⟨rfl, rfl⟩
  have hreturned : Turn strokes []
      ⟨some (bare firstFiles), some (failedCall.goto (.clean 0)), 1⟩ .clean
      (⟨some (bare firstFiles).clean, none, 1⟩,
        .returned 0 firstRelease (some (.git "git commit"))) :=
    .clean (a := 0) (k := failedCall.goto (.clean 0)) rfl rfl rfl
  rw [bare_clean] at hreturned
  refine .trans (firstCall_stages.mono fun _ _ _ => trivial) ?_
  refine .trans (Turn.solo_quiet hfailed trivial) ?_
  refine .trans (Turn.solo_quiet (.fetch false rfl rfl rfl) trivial) ?_
  refine .trans (Turn.solo_quiet (.keep (a := 0) rfl rfl rfl rfl rfl rfl) trivial) ?_
  exact Turn.solo_returned hreturned trivial

/-- A call that publishes the next release then commits the lines of both. -/
theorem nextCall_publishes :
    World.Reaches strokes (fun _ _ => True) blankWorld
      (solo [⟨nextFiles, 0⟩]
        [((0, 0), firstRelease, some (.git "git commit")), ((0, 1), nextRelease, none)]
        [((0, 1), nextRelease)] ⟨some ((bare nextFiles).commit 0), none, 2⟩) := by
  refine failedCall_cleans.trans ?_
  refine .trans (Turn.solo_quiet (.begin nextRelease rfl) trivial) ?_
  refine .trans (Turn.solo_quiet (.fetch false rfl rfl rfl) trivial) ?_
  refine .trans (stages (k := nextCall) firstFiles rfl rfl nextCall_lookup
    (fun _ _ _ => trivial) trivial ?_) ?_
  · rw [firstFiles_path]
    exact terminated_append _
  refine .trans (Turn.solo_quiet (.commit 0 rfl rfl rfl ?_) trivial) ?_
  · intro h
    have hpath := congrFun h nextCall.path
    simp [bare, History.tree] at hpath
  have hpush : Turn strokes []
      ⟨some ((bare nextFiles).commit 0), some { nextCall with dirtied := true, pc := .push }, 2⟩ .push
      (⟨some ((bare nextFiles).commit 0), none, 2⟩, .advanced 1 nextRelease [⟨nextFiles, 0⟩]) :=
    .pushAdvances (k := { nextCall with dirtied := true, pc := .push })
      (c := (bare nextFiles).commit 0) rfl rfl rfl List.nil_suffix (List.cons_ne_nil _ _)
  exact Turn.solo_advanced hpush trivial

/-- A call whose commit failed returned an error, and its line is on the branch. -/
theorem publish_leaves_staged :
    ∃ w, blankWorld.Idle ∧ World.Reaches strokes (fun _ _ => True) blankWorld w ∧
      w.returned = [((0, 0), firstRelease, some (.git "git commit")), ((0, 1), nextRelease, none)] ∧
      w.pushed = [((0, 1), nextRelease)] ∧
      strokes.write firstRelease ∈ w.lines firstCall.path ∧
      ¬ World.Transactional strokes blankWorld w := by
  refine ⟨_, blankWorld_idle, nextCall_publishes, rfl, rfl, ?_⟩
  set w := solo [⟨nextFiles, 0⟩]
    [((0, 0), firstRelease, some (.git "git commit")), ((0, 1), nextRelease, none)]
    [((0, 1), nextRelease)] ⟨some ((bare nextFiles).commit 0), none, 2⟩
  have hlines : w.lines firstCall.path = [strokes.write firstRelease, strokes.write nextRelease] := by
    have hfile : (w.remote.tree firstCall.path).getD [] =
        strokes.write firstRelease ++ [newline] ++ (strokes.write nextRelease ++ [newline]) := by
      change (nextFiles nextCall.path).getD [] = _
      rw [nextFiles, Function.update_self, firstFiles_path]
      rfl
    rw [World.lines, hfile, lines_append (terminated_append _),
      lines_line (strokes_lawful.newline firstRelease),
      lines_line (strokes_lawful.newline nextRelease)]
    rfl
  refine ⟨?_, fun h => ?_⟩
  · rw [hlines]
    exact List.mem_cons_self
  · have hlength := congrArg List.length (h.lines firstCall.path)
    rw [hlines, List.length_append] at hlength
    have hadded : (w.added strokes firstCall.path).length = 1 := rfl
    have hnone : (blankWorld.lines firstCall.path).length = 0 := rfl
    rw [hadded, hnone] at hlength
    cases hlength

end Spn.Publish
