import Spn.Trees.Specs

/-! # Staged directories

A checkout and a toolchain are filled in a directory of their call and put in place when
they are finished.
-/
namespace Spn.Trees

open Spn.Lib

section

variable {Content : Type} {T : Tools Content} {H : Hashes} {K : Callers} {D : Set Key}
variable {s : Cache Content} {c : ℕ} {α : Type}

/-! ## Staging -/

theorem stageAttempts_does (left attempt : ℕ) (hrests : Rests T K D c s) :
    Does T H K D c (fun staged t => Rests T K D c t ∧ ∀ p, staged = some p →
      p.caller = some c ∧ p ≠ .download c ∧ Holds T K D c (.has p T.empty) t)
      (stageAttempts c left attempt) s := by
  induction left generalizing attempt s with
  | zero => exact Discipline.Safe.ret fun w hw _ => ⟨rely hw hrests, by simp⟩
  | succ left ih =>
    refine does_perform fun t ht _ => ⟨rfl, ?_⟩
    rintro made u - (⟨rfl, -, rfl⟩ | ⟨rfl, rfl⟩) - hspared
    · have hrests := rely ht hrests
      refine Discipline.Safe.ret fun w hw _ => ⟨rely hw (hspared .rests rfl hrests), ?_⟩
      rintro p ⟨⟩
      have hhas : Holds T K D c (.has (.staged c attempt) T.empty)
          (t.put (.staged c attempt) (some T.empty)) := by
        refine ⟨rfl, put_files_self .., fun ch hch => ?_⟩
        rw [show (t.put (.staged c attempt) (some T.empty)).children c = none from hrests] at hch
        cases hch
      exact ⟨rfl, by simp, rely hw hhas⟩
    · have hrests := rely ht hrests
      refine does_perform fun v hv _ => ⟨trivial, ?_⟩
      rintro there w - ⟨-, rfl⟩ - -
      split
      · exact ih _ (rely hv hrests)
      · exact Discipline.Safe.ret fun x hx _ => ⟨rely hx (rely hv hrests), by simp⟩

/-- `spn_path_stage_dir` returns an empty directory of the call. -/
theorem pathStageDir_does {q : CachePath} (hrests : Rests T K D c s) :
    Does T H K D c (fun staged t => Rests T K D c t ∧ ∀ p, staged = some p →
      p.caller = some c ∧ p ≠ .download c ∧ Holds T K D c (.has p T.empty) t)
      (pathStageDir c q) s := by
  refine does_perform fun t ht _ => ⟨trivial, ?_⟩
  rintro ok u - rfl - -
  split
  · exact stageAttempts_does 16 0 (rely ht hrests)
  · exact Discipline.Safe.ret fun w hw _ => ⟨rely hw (rely ht hrests), by simp⟩

/-- What is put in place is finished. -/
theorem place_does {p q : CachePath} {x : Content} (hrests : Rests T K D c s)
    (hx : Holds T K D c (.has p x) s) (hq : q.final)
    (hgood : Finished T H K q x) :
    Does T H K D c (fun err t => Rests T K D c t ∧ (err = .ok → Holds T K D c (.placed q) t))
      (place p q) s := by
  refine does_perform fun t ht _ => ⟨⟨hx.1, fun y hy => ?_⟩, ?_⟩
  · obtain rfl : x = y := Option.some.inj ((rely ht hx).2.1.symm.trans hy)
    exact hgood
  · rintro placed u - hact - hspared
    have hrests := hspared .rests rfl (rely ht hrests)
    by_cases hp : placed = true
    · simp only [hp, if_true]
      have hthere : Holds T K D c (.placed q) u := by
        rcases hact with ⟨-, y, -, -, rfl⟩ | ⟨hfalse, -⟩
        · exact ⟨hq, by rw [put_files_self]; rfl⟩
        · rw [hp] at hfalse
          cases hfalse
      exact Discipline.Safe.ret fun w hw _ => ⟨rely hw hrests, fun _ => rely hw hthere⟩
    · simp only [hp]
      refine does_perform fun v hv _ => ⟨hx.1, ?_⟩
      rintro - w - ⟨rest, rfl⟩ - hspared
      have hrests := hspared .rests rfl (rely hv hrests)
      refine does_perform fun x hx _ => ⟨trivial, ?_⟩
      rintro there y - ⟨hthere, rfl⟩ - -
      have hrests := rely hx hrests
      split
      · rename_i hyes
        have hplaced : Holds T K D c (.placed q) y := ⟨hq, hthere.symm.trans hyes⟩
        exact Discipline.Safe.ret fun z hz _ => ⟨rely hz hrests, fun _ => rely hz hplaced⟩
      · exact Discipline.Safe.ret fun z hz _ => ⟨rely hz hrests, by simp⟩

/-- What was staged is removed when the call fails. -/
theorem drop_does {p : CachePath} (hrests : Rests T K D c s) (hp : p.caller = some c)
    {fact : Fact Content} :
    Does T H K D c (fun err t => Rests T K D c t ∧ (err = Err.ok → Holds T K D c fact t))
      (do does (.removeDir p); pure Err.error) s := by
  refine does_perform fun t ht _ => ⟨hp, ?_⟩
  rintro - u - ⟨rest, rfl⟩ - hspared
  have hrests := hspared .rests rfl (rely ht hrests)
  exact Discipline.Safe.ret fun w hw _ => ⟨rely hw hrests, by simp⟩

/-! ## Checkouts -/

/-- A command in the staged checkout. -/
theorem psRun_staged {cmd : Command} {p : CachePath} {x : Content} (hrests : Rests T K D c s)
    (hx : Holds T K D c (.has p x) s) :
    Does T H K D c (fun ok t => Rests T K D c t ∧ (ok = true → ∃ y,
      T.done cmd none (some x) y ∧ Holds T K D c (.has p y) t)) (psRun cmd p none) s := by
  have hrun : Does T H K D c _ (psRun cmd p none) s :=
    psRun_own (P := fun read before => read = none ∧ before = some x) hrests hx.1
      (fun t ht => ⟨rfl, (rely ht hx).2.1⟩)
  refine hrun.mono fun ok t _ h => ⟨h.1, fun hok => ?_⟩
  obtain ⟨read, before, y, ⟨rfl, rfl⟩, hdone, hy⟩ := h.2 hok
  exact ⟨y, hdone, hy⟩

theorem gitCheckout_does {p : CachePath} {rev : Str} {x : Content} (hrests : Rests T K D c s)
    (hx : Holds T K D c (.has p x) s) :
    Does T H K D c (fun ok t => Rests T K D c t ∧ (ok = true → ∃ y,
      T.done (.checkout rev) none (some x) y ∧ Holds T K D c (.has p y) t))
      (gitCheckout p rev) s := by
  unfold gitCheckout
  split
  · exact Discipline.Safe.ret fun w hw _ => ⟨rely hw hrests, by simp⟩
  · refine does_perform fun t ht _ => ⟨trivial, ?_⟩
    rintro root u - rfl - -
    split
    · exact psRun_staged (rely ht hrests) (rely ht hx)
    · exact Discipline.Safe.ret fun w hw _ => ⟨rely hw (rely ht hrests), by simp⟩

theorem applyPatches_does {p : CachePath} (patches : List Str) {x : Content}
    (hrests : Rests T K D c s) (hx : Holds T K D c (.has p x) s) :
    Does T H K D c (fun ok t => Rests T K D c t ∧ (ok = true → ∃ y,
      T.Filled (patches.map .apply) x y ∧ Holds T K D c (.has p y) t))
      (applyPatches p patches) s := by
  induction patches generalizing s x with
  | nil => exact Discipline.Safe.ret fun w hw _ => ⟨rely hw hrests, fun _ => ⟨x, rfl, rely hw hx⟩⟩
  | cons patch rest ih =>
    refine Discipline.Safe.bind (psRun_staged hrests hx) fun ok t _ h => ?_
    split
    · rename_i hok
      obtain ⟨y, hdone, hy⟩ := h.2 hok
      refine (ih h.1 hy).mono fun ok' u _ h' => ⟨h'.1, fun hok' => ?_⟩
      obtain ⟨z, hfilled, hz⟩ := h'.2 hok'
      exact ⟨z, ⟨y, hdone, hfilled⟩, hz⟩
    · exact Discipline.Safe.ret fun w hw _ => ⟨rely hw h.1, by simp⟩

/-- `spn_git_cache_fill_checkout` returns without an error only where it is filled. -/
theorem gitCacheFillCheckout_does {p : CachePath} {id : CheckoutId} (hrests : Rests T K D c s)
    (hp : Holds T K D c (.has p T.empty) s) :
    Does T H K D c (fun ok t => Rests T K D c t ∧ (ok = true → ∃ x,
      T.CheckedOut H id x ∧ Holds T K D c (.has p x) t)) (gitCacheFillCheckout H id p) s := by
  have hfail : ∀ {t : Cache Content}, Rests T K D c t →
      Does T H K D c (fun ok t => Rests T K D c t ∧ (ok = true → ∃ x,
        T.CheckedOut H id x ∧ Holds T K D c (.has p x) t)) (pure false : Call Bool) t :=
    fun hrests => Discipline.Safe.ret fun w hw _ => ⟨rely hw hrests, by simp⟩
  refine Discipline.Safe.bind (psRun_staged hrests hp) fun cloned t _ h => ?_
  split
  · rename_i hcloned
    obtain ⟨x, hclone, hx⟩ := h.2 hcloned
    refine Discipline.Safe.bind (gitCheckout_does h.1 hx) fun ok u _ h => ?_
    split
    · rename_i hok
      obtain ⟨y, hcheckout, hy⟩ := h.2 hok
      refine (applyPatches_does id.patches h.1 hy).mono fun ok' v _ h' => ⟨h'.1, fun hok' => ?_⟩
      obtain ⟨z, hfilled, hz⟩ := h'.2 hok'
      exact ⟨z, ⟨x, hclone, y, hcheckout, hfilled⟩, hz⟩
    · exact hfail h.1
  · exact hfail h.1

theorem fillAndPlace_does {id : CheckoutId} (hasked : K.AskedCheckout id)
    (hrests : Rests T K D c s) :
    Does T H K D c (fun err t => Rests T K D c t ∧
      (err = .ok → Holds T K D c (.placed (.checkout (H.gitCheckoutKey id))) t))
      (fillAndPlace H c id) s := by
  refine Discipline.Safe.bind (pathStageDir_does hrests) fun staged t _ h => ?_
  cases staged with
  | none => exact Discipline.Safe.ret fun w hw _ => ⟨rely hw h.1, by simp⟩
  | some p =>
    obtain ⟨hp, -, hempty⟩ := h.2 p rfl
    refine Discipline.Safe.bind (gitCacheFillCheckout_does h.1 hempty) fun ok u _ h => ?_
    split
    · rename_i hok
      obtain ⟨x, hfilled, hx⟩ := h.2 hok
      exact place_does h.1 hx rfl ⟨id, hasked, rfl, hfilled⟩
    · exact drop_does h.1 hp

theorem checkoutDir_does {id : CheckoutId} (hrests : Rests T K D c s)
    (hplaced : Holds T K D c (.placed (.checkout (H.gitCheckoutKey id))) s) :
    Does T H K D c (fun err t => Rests T K D c t ∧
      (err = .ok → Holds T K D c (.placed (.checkout (H.gitCheckoutKey id))) t))
      (checkoutDir H id) s := by
  unfold checkoutDir
  split
  · exact Discipline.Safe.ret fun w hw _ => ⟨rely hw hrests, fun _ => rely hw hplaced⟩
  · refine does_perform fun t ht _ => ⟨trivial, ?_⟩
    rintro there u - ⟨-, rfl⟩ - -
    split
    · exact Discipline.Safe.ret fun w hw _ =>
        ⟨rely hw (rely ht hrests), fun _ => rely hw (rely ht hplaced)⟩
    · exact Discipline.Safe.ret fun w hw _ => ⟨rely hw (rely ht hrests), by simp⟩

theorem gitCacheMaterializeCheckout_does {id : CheckoutId} (hasked : K.AskedCheckout id)
    (hurl : K.Asked id.url) (hrests : Rests T K D c s) :
    Does T H K D c (fun err t => Rests T K D c t ∧
      (err = .ok → Holds T K D c (.placed (.checkout (H.gitCheckoutKey id))) t))
      (gitCacheMaterializeCheckout H c id) s := by
  have hfail : ∀ {t : Cache Content}, Rests T K D c t →
      Does T H K D c (fun err t => Rests T K D c t ∧
        (err = .ok → Holds T K D c (.placed (.checkout (H.gitCheckoutKey id))) t))
        (pure .error : Call Err) t :=
    fun hrests => Discipline.Safe.ret fun w hw _ => ⟨rely hw hrests, by simp⟩
  refine Discipline.Safe.bind (gitCacheEnsureDb_does hurl hrests) fun err t _ h => ?_
  split
  · refine Discipline.Safe.bind (gitDbEnsureRev_does h.1) fun err u _ hrests => ?_
    split
    · refine does_perform fun v hv _ => ⟨trivial, ?_⟩
      rintro there w - ⟨hthere, rfl⟩ - -
      have hrests := rely hv hrests
      split
      · rename_i hyes
        exact checkoutDir_does hrests ⟨rfl, hthere.symm.trans hyes⟩
      · refine Discipline.Safe.bind (fillAndPlace_does hasked hrests) fun err x _ h => ?_
        split
        · rename_i hok
          exact checkoutDir_does h.1 (h.2 hok)
        · exact hfail h.1
    · exact hfail hrests
  · exact hfail h.1

/-! ## The entry of a checkout -/

section

variable {m : Mutex}

/-- Nothing but an operation on the entry is forbidden. -/
abbrev Passes (m : Mutex) (p : Call α) : Prop := p.All fun o => o.mutex ≠ some m

theorem psRun_passes {cmd : Command} {p : CachePath} {input : Option CachePath} :
    Passes m (psRun cmd p input) :=
  ⟨by simp [Op.mutex], fun _ => ⟨by simp [Op.mutex], fun _ => trivial⟩⟩

theorem gitCacheEnsureDb_passes {url : Str} (hm : ∀ k, m ≠ .db k) :
    Passes m (gitCacheEnsureDb H url) := by
  have hne : ∀ {o : Op} {k : Key}, o.mutex = some (.db k) → o.mutex ≠ some m := by
    intro o k ho hcon
    exact hm k (Option.some.inj (hcon.symm.trans ho))
  refine Prog.All.perform_bind (hne rfl) fun _ =>
    Prog.All.perform_bind (by simp [Op.mutex]) fun entry => ?_
  have hrest : Passes m (do let entry ← does (.unlock (.db (H.gitDbKey url)))
                            pure entry.err) :=
    Prog.All.perform_bind (hne rfl) fun _ => Prog.all_pure _
  dsimp only
  split
  · exact hrest
  · refine Prog.All.bind ?_ fun _ => hrest
    refine Prog.All.perform_bind (hne rfl) fun _ =>
      Prog.All.perform_bind (by simp [Op.mutex]) fun there => ?_
    split
    · exact Prog.all_pure _
    · refine Prog.All.bind psRun_passes fun ok => ?_
      split
      · exact Prog.all_pure _
      · exact Prog.All.perform (hne rfl)

theorem findRev_passes {k : Key} {rev : Str} : Passes m (findRev k rev) := by
  refine Prog.All.bind psRun_passes fun found => ?_
  split
  · exact Prog.all_pure _
  · refine Prog.All.bind psRun_passes fun fetched => ?_
    split
    · exact psRun_passes
    · refine Prog.All.bind psRun_passes fun mirrored => ?_
      split
      · exact psRun_passes
      · exact Prog.all_pure _

theorem gitDbEnsureRev_passes {k : Key} {rev : Str} (hm : m ≠ .db k) :
    Passes m (gitDbEnsureRev k rev) := by
  have hne : ∀ {o : Op}, o.mutex = some (.db k) → o.mutex ≠ some m := fun ho hcon =>
    hm (Option.some.inj (hcon.symm.trans ho))
  exact Prog.All.perform_bind (hne rfl) fun _ => Prog.All.bind findRev_passes fun _ =>
    Prog.All.perform_bind (hne rfl) fun _ => Prog.all_pure _

theorem stageAttempts_passes (left attempt : ℕ) : Passes m (stageAttempts c left attempt) := by
  induction left generalizing attempt with
  | zero => exact Prog.all_pure _
  | succ left ih =>
    refine Prog.All.perform_bind (by simp [Op.mutex]) fun made => ?_
    split
    · exact Prog.all_pure _
    · refine Prog.All.perform_bind (by simp [Op.mutex]) fun there => ?_
      split
      · exact ih _
      · exact Prog.all_pure _

theorem applyPatches_passes {p : CachePath} (patches : List Str) :
    Passes m (applyPatches p patches) := by
  induction patches with
  | nil => exact Prog.all_pure _
  | cons patch rest ih =>
    refine Prog.All.bind psRun_passes fun ok => ?_
    split
    · exact ih
    · exact Prog.all_pure _

theorem gitCacheFillCheckout_passes {id : CheckoutId} {p : CachePath} :
    Passes m (gitCacheFillCheckout H id p) := by
  refine Prog.All.bind psRun_passes fun cloned => ?_
  split
  · refine Prog.All.bind ?_ fun ok => ?_
    · unfold gitCheckout
      split
      · exact Prog.all_pure _
      · refine Prog.All.perform_bind (by simp [Op.mutex]) fun root => ?_
        split
        · exact psRun_passes
        · exact Prog.all_pure _
    · split
      · exact applyPatches_passes _
      · exact Prog.all_pure _
  · exact Prog.all_pure _

theorem fillAndPlace_passes {id : CheckoutId} : Passes m (fillAndPlace H c id) := by
  refine Prog.All.bind ?_ fun staged => ?_
  · refine Prog.All.perform_bind (by simp [Op.mutex]) fun ok => ?_
    split
    · exact stageAttempts_passes 16 0
    · exact Prog.all_pure _
  · cases staged with
    | none => exact Prog.all_pure _
    | some p =>
      refine Prog.All.bind gitCacheFillCheckout_passes fun ok => ?_
      split
      · refine Prog.All.perform_bind (by simp [Op.mutex]) fun placed => ?_
        split
        · exact Prog.all_pure _
        · refine Prog.All.perform_bind (by simp [Op.mutex]) fun _ =>
            Prog.All.perform_bind (by simp [Op.mutex]) fun there => ?_
          split <;> exact Prog.all_pure _
      · exact Prog.All.perform_bind (by simp [Op.mutex]) fun _ => Prog.all_pure _

theorem checkoutDir_passes {id : CheckoutId} : Passes m (checkoutDir H id) := by
  unfold checkoutDir
  split
  · exact Prog.all_pure _
  · refine Prog.All.perform_bind (by simp [Op.mutex]) fun there => ?_
    split <;> exact Prog.all_pure _

/-- Filling a checkout leaves its entry alone. -/
theorem gitCacheMaterializeCheckout_passes {id : CheckoutId} {k : Key} :
    Passes (.checkout k) (gitCacheMaterializeCheckout H c id) := by
  refine Prog.All.bind (gitCacheEnsureDb_passes (by simp)) fun err => ?_
  split
  · refine Prog.All.bind (gitDbEnsureRev_passes (by simp)) fun err => ?_
    split
    · refine Prog.All.perform_bind (by simp [Op.mutex]) fun there => ?_
      split
      · exact checkoutDir_passes
      · refine Prog.All.bind fillAndPlace_passes fun err => ?_
        split
        · exact checkoutDir_passes
        · exact Prog.all_pure _
    · exact Prog.all_pure _
  · exact Prog.all_pure _

end

/-- What passes spares an entry. -/
theorem Passes.spares {m : Mutex} {e : Entry} {p : Call α} (h : Passes m p) :
    (discipline T H K D).SparedBy (.holds m e) p := h

theorem materialize_does {id : CheckoutId} {e : Entry} (hasked : K.AskedCheckout id)
    (hurl : K.Asked id.url) (hrests : Rests T K D c s)
    (hheld : Holds T K D c (.holds (.checkout (H.gitCheckoutKey id)) e) s) :
    Does T H K D c (fun _ t => Rests T K D c t ∧
      Guards T K D c (·.err = .ok) (.checkout (H.gitCheckoutKey id)) t)
      (materialize H c id) s := by
  refine does_store hrests hheld fun t hrests hheld => ?_
  refine Discipline.Safe.bind (does_frame (gitCacheMaterializeCheckout_does hasked hurl hrests)
    (Passes.spares gitCacheMaterializeCheckout_passes) hheld) fun err u _ hu => ?_
  obtain ⟨⟨hrests, hplaced⟩, hheld⟩ := hu
  refine does_last fun v hv _ => ⟨(rely hv hheld).1, ?_⟩
  rintro - w - rfl - hspared x hx -
  refine ⟨rely hx (hspared .rests rfl (rely hv hrests)), ⟨true, err⟩, rely hx ?_, fun he => ?_⟩
  · exact ⟨(rely hv hheld).1, Cache.setEntry_self ..⟩
  · exact rely hx (hspared (.placed _) trivial (rely hv (hplaced he)))

/-- `spn_git_cache_ensure_checkout` returns without an error only where there is one. -/
theorem gitCacheEnsureCheckout_does {id : CheckoutId} (hasked : K.AskedCheckout id)
    (hurl : K.Asked id.url) (hrests : Rests T K D c s) :
    Does T H K D c (fun err t => Rests T K D c t ∧
      (err = .ok → Holds T K D c (.placed (.checkout (H.gitCheckoutKey id))) t))
      (gitCacheEnsureCheckout H c id) s :=
  does_entry hrests fun _ _ hrests hheld => materialize_does hasked hurl hrests hheld

/-! ## Toolchains -/

theorem psRun_curl {url : Str} (hrests : Rests T K D c s) :
    Does T H K D c (fun ok t => Rests T K D c t ∧ (ok = true → ∃ x,
      Holds T K D c (.has (.download c) x) t)) (psRun (.curl url) (.download c) none) s := by
  refine (psRun_own (P := fun _ _ => True) hrests rfl fun _ _ => trivial).mono fun ok t _ h =>
    ⟨h.1, fun hok => ?_⟩
  obtain ⟨_, _, x, -, -, hx⟩ := h.2 hok
  exact ⟨x, hx⟩

theorem fetch_does {mirror : Str} {artifact : Artifact} (hrests : Rests T K D c s) :
    Does T H K D c (fun ok t => Rests T K D c t ∧ (ok = true → ∃ x,
      Holds T K D c (.has (.download c) x) t)) (fetch c mirror artifact) s := by
  unfold fetch
  dsimp only
  split
  · exact psRun_curl hrests
  · refine Discipline.Safe.bind (psRun_curl hrests) fun ok t _ h => ?_
    split
    · rename_i hok
      obtain ⟨x, hx⟩ := h.2 hok
      exact Discipline.Safe.ret fun w hw _ => ⟨rely hw h.1, fun _ => ⟨x, rely hw hx⟩⟩
    · exact psRun_curl h.1

theorem dropDownload_does {fact : Fact Content} (hrests : Rests T K D c s) :
    Does T H K D c (fun err t => Rests T K D c t ∧ (err = .ok → Holds T K D c fact t))
      (dropDownload c) s := by
  refine does_perform fun t ht _ => ⟨rfl, ?_⟩
  rintro - u - ⟨rest, -, rfl⟩ - hspared
  have hrests := hspared .rests rfl (rely ht hrests)
  exact Discipline.Safe.ret fun w hw _ => ⟨rely hw hrests, by simp⟩

/-- Staging a directory leaves the archive alone. -/
theorem pathStageDir_spares {q : CachePath} {x : Content} :
    (discipline T H K D).SparedBy (.has (.download c) x) (pathStageDir c q) := by
  have hattempts : ∀ left attempt, (stageAttempts c left attempt).All
      fun o => o.place ≠ some (.download c) := by
    intro left
    induction left with
    | zero => exact fun _ => Prog.all_pure _
    | succ left ih =>
      intro attempt
      refine Prog.All.perform_bind (by simp [Op.place]) fun made => ?_
      split
      · exact Prog.all_pure _
      · refine Prog.All.perform_bind (by simp [Op.place]) fun there => ?_
        split
        · exact ih _
        · exact Prog.all_pure _
  refine Prog.All.perform_bind (by simp [discipline, Spares, Op.place]) fun ok => ?_
  split
  · exact hattempts 16 0
  · exact Prog.all_pure _

theorem extract_does {artifact : Artifact} {p : CachePath} {x : Content}
    (hrests : Rests T K D c s) (hp : p ≠ .download c) (hempty : Holds T K D c (.has p T.empty) s)
    (hx : Holds T K D c (.has (.download c) x) s) (hsha : T.sha256 x = artifact.sha256) :
    Does T H K D c (fun err t => Rests T K D c t ∧
      (err = .ok → Holds T K D c (.placed (.toolchain artifact.sha256)) t))
      (extract c artifact p) s := by
  have hrun : Does T H K D c _ (psRun .tar p (some (.download c))) s :=
    psRun_own (P := fun read before => read = some x ∧ before = some T.empty) hrests hempty.1
      (fun t ht => ⟨(rely ht hx).2.1, (rely ht hempty).2.1⟩)
  refine Discipline.Safe.bind hrun fun extracted t _ h => ?_
  refine does_perform fun u hu _ => ⟨rfl, ?_⟩
  rintro - v - ⟨rest, -, rfl⟩ - hspared
  have hrests := hspared .rests rfl (rely hu h.1)
  refine does_perform fun w hw _ => ⟨trivial, ?_⟩
  rintro filled y - ⟨-, rfl⟩ - -
  have hrests := rely hw hrests
  split
  · rename_i hboth
    obtain ⟨hok, -⟩ := Bool.and_eq_true_iff.1 hboth
    obtain ⟨_, _, z, ⟨rfl, rfl⟩, hdone, hz⟩ := h.2 hok
    have hz := rely hw (hspared (.has p z) (by simpa [Spares, Op.place] using Ne.symm hp)
      (rely hu hz))
    exact place_does hrests hz rfl ⟨x, hsha, hdone⟩
  · exact drop_does hrests hempty.1

theorem fill_does {mirror : Str} {artifact : Artifact} (hrests : Rests T K D c s) :
    Does T H K D c (fun err t => Rests T K D c t ∧
      (err = .ok → Holds T K D c (.placed (.toolchain artifact.sha256)) t))
      (fill c mirror artifact) s := by
  refine Discipline.Safe.bind (fetch_does hrests) fun ok t _ h => ?_
  split
  · rename_i hok
    obtain ⟨x, hx⟩ := h.2 hok
    refine does_perform fun u hu _ => ⟨trivial, ?_⟩
    rintro digest v - ⟨hdigest, rfl⟩ - -
    have hrests := rely hu h.1
    have hx := rely hu hx
    split
    · rename_i heq
      obtain ⟨y, hy, hsha⟩ := hdigest _ heq
      obtain rfl : x = y := Option.some.inj (hx.2.1.symm.trans hy)
      refine Discipline.Safe.bind (does_frame (pathStageDir_does hrests) pathStageDir_spares hx)
        fun staged w _ hw => ?_
      cases staged with
      | none => exact dropDownload_does hw.1.1
      | some p =>
        obtain ⟨-, hne, hempty⟩ := hw.1.2 p rfl
        exact extract_does hw.1.1 hne hempty hw.2 hsha
    · exact dropDownload_does hrests
  · exact dropDownload_does h.1

/-- `spn_toolchain_provision` returns without an error only where there is a toolchain. -/
theorem toolchainProvision_does {mirror : Str} {artifact : Artifact}
    (hrests : Rests T K D c s) :
    Does T H K D c (fun err t => Rests T K D c t ∧
      (err = .ok → Holds T K D c (.placed (.toolchain artifact.sha256)) t))
      (toolchainProvision c mirror artifact) s := by
  have hlast : ∀ (result : Err) (t : Cache Content), Rests T K D c t →
      (result = .ok → Holds T K D c (.placed (.toolchain artifact.sha256)) t) →
      Does T H K D c (fun err t => Rests T K D c t ∧
        (err = .ok → Holds T K D c (.placed (.toolchain artifact.sha256)) t))
        (do does (.release artifact.sha256); pure result) t := by
    intro result t hrests hplaced
    refine does_perform fun u hu _ => ⟨trivial, ?_⟩
    rintro - v - - - hspared
    have hrests := hspared .rests rfl (rely hu hrests)
    exact Discipline.Safe.ret fun w hw _ => ⟨rely hw hrests, fun he =>
      rely hw (hspared (.placed _) trivial (rely hu (hplaced he)))⟩
  have hfill : ∀ t, Rests T K D c t → Does T H K D c (fun err t => Rests T K D c t ∧
      (err = .ok → Holds T K D c (.placed (.toolchain artifact.sha256)) t))
      (do let result ← fill c mirror artifact; does (.release artifact.sha256); pure result) t :=
    fun t hrests => Discipline.Safe.bind (fill_does hrests) fun result u _ h =>
      hlast result u h.1 h.2
  refine does_perform fun t ht _ => ⟨trivial, ?_⟩
  rintro locked u - - - hspared
  have hrests := hspared .rests rfl (rely ht hrests)
  by_cases hlocked : locked = true
  · simp only [hlocked, if_true]
    refine does_perform fun v hv _ => ⟨trivial, ?_⟩
    rintro there w - ⟨hthere, rfl⟩ - -
    have hrests := rely hv hrests
    split
    · rename_i hyes
      exact hlast .ok w hrests fun _ => ⟨rfl, hthere.symm.trans hyes⟩
    · exact hfill w hrests
  · simp only [hlocked]
    exact hfill u hrests

end

end Spn.Trees
