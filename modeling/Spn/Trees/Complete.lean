import Spn.Trees.Filled

/-! # Cached trees are complete

A checkout or a toolchain whose call returned without an error is complete in every run. A
bare clone is cloned in place, so it is complete where the steps were careful with it; a
call that finds one half made takes it for the whole.
-/
namespace Spn.Trees

open Spn.Lib

section

variable {Content : Type} {T : Tools Content} {H : Hashes} {K : Callers} {D : Set Key}

variable (T H) in
/-- What a call without an error stands for. -/
def Complete (s : Cache Content) : Want → Prop
  | .db url => ∃ x, s.files (.db (H.gitDbKey url)) = some x ∧ T.Cloned url x
  | .checkout id => ∃ x, s.files (.checkout (H.gitCheckoutKey id)) = some x ∧ T.CheckedOut H id x
  | .toolchain artifact => ∃ x, s.files (.toolchain artifact.sha256) = some x ∧
      T.Extracted artifact.sha256 x

/-- The keys tell what the calls ask for apart. -/
structure Callers.Distinct (K : Callers) (H : Hashes) : Prop where
  db : ∀ url url', K.Asked url → K.Asked url' → H.gitDbKey url = H.gitDbKey url' → url = url'
  checkout : ∀ id id', K.AskedCheckout id → K.AskedCheckout id' →
    H.gitCheckoutKey id = H.gitCheckoutKey id' → id = id'

variable (T H K D) in
/-- What a call counts on when it has returned. -/
def Stands (c : ℕ) (err : Err) (s : Cache Content) : Prop :=
  err = .ok → match K.want c with
    | .db url => Holds T K D c (.whole (H.gitDbKey url)) s
    | .checkout id => Holds T K D c (.placed (.checkout (H.gitCheckoutKey id))) s
    | .toolchain artifact => Holds T K D c (.placed (.toolchain artifact.sha256)) s

theorem call_does (c : ℕ) (s : Cache Content) (hrests : Rests T K D c s) :
    Does T H K D c (Stands T H K D c) (K.call H c) s := by
  unfold Callers.call Stands
  cases hw : K.want c with
  | db url =>
    have hasked : K.Asked url := ⟨c, by rw [hw]; rfl⟩
    exact (gitCacheEnsureDb_does hasked hrests).mono fun _ _ _ h => h.2
  | checkout id =>
    have hasked : K.AskedCheckout id := ⟨c, by rw [hw]; rfl⟩
    have hurl : K.Asked id.url := ⟨c, by rw [hw]; rfl⟩
    exact (gitCacheEnsureCheckout_does hasked hurl hrests).mono fun _ _ _ h => h.2
  | toolchain artifact =>
    exact (toolchainProvision_does hrests).mono fun _ _ _ h => h.2

/-- In every run that is careful with the bare clones of a set, whatever a call that has
returned without an error stands for is complete; a bare clone if it is of the set. -/
theorem cached_trees_complete (hkeys : K.Distinct H)
    {cfg : Config (Cache Content) Op Op.Ans Err}
    (hrun : (careful T K.owner D).Reached (K.start H) cfg) (c : ℕ)
    (hret : cfg.progs c = some (.ret .ok))
    (hcareful : ∀ url, K.want c = .db url → H.gitDbKey url ∈ D) :
    Complete T H cfg.shared (K.want c) := by
  have hsafe : ∀ c p, some (K.call H c) = some p →
      Does T H K D c (Stands T H K D c) p .start := by
    rintro c p ⟨⟩
    exact call_does c _ rfl
  have hinv : Inv T H K D cfg.shared :=
    (Discipline.safe_run (D := discipline T H K D) hrun inv_start hsafe).1
  have hstands : Stands T H K D c .ok cfg.shared :=
    Discipline.returned (D := discipline T H K D) hrun inv_start hsafe hret
  have hstands := hstands rfl
  cases hw : K.want c with
  | db url =>
    rw [hw] at hstands
    have hmem := hcareful url hw
    have hwhole := hstands hmem
    obtain ⟨x, hx⟩ := Option.isSome_iff_exists.1 hwhole.there
    rcases hinv.db _ hmem x hx with hr | hp | ⟨url', hasked, hkey, hcloned⟩
    · rw [hwhole.notRemains] at hr
      cases hr
    · exact absurd hp hwhole.notInProgress
    · obtain rfl := hkeys.db url' url hasked ⟨c, by rw [hw]; rfl⟩ hkey
      exact ⟨x, hx, hcloned⟩
  | checkout id =>
    rw [hw] at hstands
    obtain ⟨x, hx⟩ := Option.isSome_iff_exists.1 hstands.2
    obtain ⟨id', hasked, hkey, hchecked⟩ := hinv.checkout _ x hx
    obtain rfl := hkeys.checkout id' id hasked ⟨c, by rw [hw]; rfl⟩ hkey
    exact ⟨x, hx, hchecked⟩
  | toolchain artifact =>
    rw [hw] at hstands
    obtain ⟨x, hx⟩ := Option.isSome_iff_exists.1 hstands.2
    exact ⟨x, hx, hinv.toolchain _ x hx⟩

end

/-! ## A half-made clone -/

namespace Half

/-- Commands that make a tree in two writes, and hold what they made. -/
def tools : Tools ℕ where
  empty := 0
  write _ _ before x := x = before.getD 0 + 1
  done _ _ _ x := x = 2
  sha256 _ := []
  hasDir _ _ := true
  cloned h := by omega
  fetched _ _ h := by simp_all

def hashes : Hashes where
  str _ := 0
  combine _ := 0

def url : Str := str "https://h/core/spum.git"

def spum : CheckoutId := ⟨url, str "v1", [], [str "fix"]⟩

/-- Processes that ask for one bare clone, but for one that asks for a checkout of it and one that
asks for a toolchain. -/
def callers : Callers where
  owner c := c
  want
    | 2 => .checkout spum
    | 3 => .toolchain ⟨str "https://h/cc.tar", str "d1"⟩
    | _ => .db url
  mirror _ := []

def key : Key := hashes.gitDbKey url

def wants : Config (Cache ℕ) Op Op.Ans Err := callers.start hashes

def child : Child ℕ := ⟨.cloneBare url, .db key, none, none, none⟩

/-- The first call has begun to clone. -/
def cloning : Cache ℕ :=
  ((Cache.start.setHolder 0 (.db key) (some 0)).setEntry 0 (.db key) ⟨true, .ok⟩).setChild 0
    (some child)

/-- Every step until then was careful. -/
theorem reached_cloning : ∃ progs, (careful tools callers.owner Set.univ).Reached wants
    ⟨cloning, progs⟩ ∧ progs 1 = some (callers.call hashes 1) ∧
      progs 0 = some (.op .wait fun ok => (if ok then pure () else
        does (.store (.db key) ⟨true, .error⟩)).bind fun _ => do
          let entry ← does (.unlock (.db key))
          pure entry.err) ∧
      progs 2 = some (callers.call hashes 2) ∧ progs 3 = some (callers.call hashes 3) := by
  have h₀ : (careful tools callers.owner Set.univ).Reached wants wants := .refl
  have h₁ := h₀.act 0 () (Cache.start.setHolder 0 (.db key) (some 0)) rfl ⟨trivial, rfl, rfl⟩
  have h₂ := h₁.act 0 (⟨false, .ok⟩ : Entry) _ rfl ⟨trivial, rfl, rfl⟩
  have h₃ := h₂.act 0 ()
    ((Cache.start.setHolder 0 (.db key) (some 0)).setEntry 0 (.db key) ⟨true, .ok⟩) rfl
    ⟨trivial, rfl⟩
  have h₄ := h₃.act 0 false _ rfl ⟨fun _ h => absurd h (by decide), rfl, rfl⟩
  have hnone : ¬ Cache.InProgress ((Cache.start.setHolder 0 (.db key) (some 0)).setEntry 0
      (.db key) ⟨true, .ok⟩ : Cache ℕ) key := by
    rintro ⟨c, child, hchild, -⟩
    cases hchild
  have h₅ := h₄.act 0 () cloning rfl
    ⟨fun _ _ => hnone, none, .inl ⟨rfl, fun _ => .inl rfl⟩, rfl⟩
  exact ⟨_, h₅, rfl, rfl, rfl, rfl⟩

theorem two_le_cloned {url : Str} {x : ℕ} (h : tools.Cloned url x) : 2 ≤ x := by
  obtain ⟨before, y, hdone, hfetched⟩ := h
  induction hfetched with
  | refl => exact (show y = 2 from hdone).ge
  | tail _ hstep ih =>
    obtain ⟨_, -, hwrite⟩ := hstep
    exact ih.trans ((Nat.le_succ _).trans (le_of_eq hwrite.symm))

/-- A call that returns without an error while the first process still clones. -/
theorem half_made_clone_is_taken : ∃ cfg, (system tools callers.owner).Reached wants cfg ∧
    cfg.progs 1 = some (.ret .ok) ∧ ¬ Complete tools hashes cfg.shared (callers.want 1) := by
  obtain ⟨progs, hrun, hprogs, -⟩ := reached_cloning
  have h₀ := (reached_of_careful hrun).env (cloning.put (.db key) (some 1))
    (Works.write (s := cloning) 0 child 1 rfl rfl (fun h => by cases h) rfl)
  have h₁ := h₀.act 1 () ((cloning.put (.db key) (some 1)).setHolder 1 (.db key) (some 1))
    hprogs ⟨rfl, rfl⟩
  have h₂ := h₁.act 1 (⟨false, .ok⟩ : Entry) _ rfl ⟨rfl, rfl⟩
  have h₃ := h₂.act 1 () (((cloning.put (.db key) (some 1)).setHolder 1 (.db key)
    (some 1)).setEntry 1 (.db key) ⟨true, .ok⟩) rfl rfl
  have h₄ := h₃.act 1 true _ rfl ⟨rfl, rfl⟩
  have h₅ := h₄.act 1 (⟨true, .ok⟩ : Entry) _ rfl ⟨rfl, rfl⟩
  refine ⟨_, h₅, rfl, ?_⟩
  rintro ⟨x, hx, hcloned⟩
  have hle := two_le_cloned hcloned
  obtain rfl : 1 = x := Option.some.inj hx
  omega

/-- The cache with the clone of the first call, that has returned. -/
def cloned : Cache ℕ :=
  ((((((cloning.put (.db key) (some 1)).put (.db key) (some 2)).noteEnd child false).setChild 0
    (some { child with exit := some true })).setChild 0 none).setHolder 0 (.db key) none)

/-- The first call, left alone until it has returned. -/
theorem reached_cloned : ∃ progs, (careful tools callers.owner Set.univ).Reached wants
    ⟨cloned, progs⟩ ∧ progs 0 = some (.ret .ok) ∧ progs 2 = some (callers.call hashes 2) ∧
      progs 3 = some (callers.call hashes 3) := by
  obtain ⟨progs, hrun, -, hprogs, h2, h3⟩ := reached_cloning
  have h₀ := hrun.env (cloning.put (.db key) (some 1))
    (Works.write (s := cloning) 0 child 1 rfl rfl (fun h => by cases h) rfl)
  have h₁ := h₀.env ((cloning.put (.db key) (some 1)).put (.db key) (some 2))
    (Works.write (s := cloning.put (.db key) (some 1)) 0 child 2 rfl rfl (fun h => by cases h) rfl)
  have h₂ := h₁.env _ (Works.exit (s := (cloning.put (.db key) (some 1)).put (.db key) (some 2))
    0 child 2 rfl rfl rfl rfl)
  have h₃ := h₂.act 0 true _ hprogs ⟨trivial, ⟨_, rfl, rfl⟩, rfl⟩
  have h₄ := h₃.act 0 (⟨true, .ok⟩ : Entry) _ rfl ⟨trivial, rfl, rfl⟩
  exact ⟨_, h₄, rfl, h2, h3⟩

theorem cloned_children (c : ℕ) : cloned.children c = none := by
  by_cases hc : c = 0
  · subst hc
    rfl
  · simp [cloned, cloning, child, Cache.setHolder, Cache.setChild, Cache.noteEnd, Cache.put,
      Cache.setEntry, Cache.start, Command.bare]

theorem not_cloning {s : Cache ℕ} {k : Key} (h : s.children = cloned.children) :
    ¬ s.InProgress k := by
  rintro ⟨c, child, hchild, -⟩
  rw [h, cloned_children] at hchild
  cases hchild

/-- A command that finds the finished tree exits with 0. -/
theorem reached_runs {cfg : Config (Cache ℕ) Op Op.Ans Err} {c : ℕ} {cmd : Command} {p : CachePath}
    {next : Unit → Call Err} {f : Bool → Call Err}
    (hrun : (careful tools callers.owner Set.univ).Reached wants cfg)
    (hp : cfg.progs c = some (.op (.spawn cmd p none) next)) (hnext : next () = .op .wait f)
    (hcmd : cmd.clones = false)
    (hfile : cfg.shared.files p = some 2) :
    (careful tools callers.owner Set.univ).Reached wants
      ⟨cfg.shared.setChild c none, Function.update cfg.progs c (some (f true))⟩ := by
  let running : Child ℕ := ⟨cmd, p, none, some 2, none⟩
  have hbare : running.cmd.bare = false ∧ Careful tools Set.univ cfg.shared (.spawn cmd p none) := by
    cases cmd with
    | cloneBare | cloneShared => cases hcmd
    | _ => exact ⟨rfl, trivial⟩
  have h₀ := hrun.act c () (cfg.shared.setChild c (some running)) hp
    ⟨hbare.2, none, .inl ⟨rfl, fun h => by rw [hcmd] at h; cases h⟩, by rw [hfile]; rfl⟩
  have hexit := Works.exit (T := tools) (s := cfg.shared.setChild c (some running)) c running 2
    (Function.update_self ..) rfl hfile rfl
  have hnote : (cfg.shared.setChild c (some running)).noteEnd running false =
      cfg.shared.setChild c (some running) := by
    rw [Cache.noteEnd, hbare.1]
  rw [hnote] at hexit
  rw [hnext] at h₀
  have h₁ := (h₀.env _ hexit).act c true _ (Function.update_self ..)
    ⟨trivial, ⟨_, Function.update_self .., rfl⟩, rfl⟩
  simp only [Cache.setChild, Function.update_idem] at h₁
  exact h₁

/-- The staged directory of the checkout. -/
def stagedSpum : CachePath := .staged 2 0

def cloneShared : Child ℕ := ⟨.cloneShared key, stagedSpum, none, some 0, none⟩

/-- The process of the fourth call is killed with its lock; then the third call, left alone, makes
its checkout. -/
theorem reached_checkedOut : ∃ cfg, (careful tools callers.owner Set.univ).Reached wants cfg ∧
    cfg.progs 0 = some (.ret .ok) ∧ cfg.progs 2 = some (.ret .ok) ∧ cfg.progs 3 = none := by
  obtain ⟨progs, hrun, h0, h2, h3⟩ := reached_cloned
  have h₀ := hrun.act 3 true _ h3 ⟨trivial, .inl ⟨rfl, rfl, rfl⟩⟩
  have h₁ := Relation.ReflTransGen.tail h₀ (System.Step.kill 3 _ rfl)
  have h₂ := System.Reached.act h₁ 2 () _ h2 ⟨trivial, rfl, rfl⟩
  have h₃ := h₂.act 2 (⟨false, .ok⟩ : Entry) _ rfl ⟨trivial, rfl, rfl⟩
  have h₄ := h₃.act 2 () _ rfl ⟨trivial, rfl⟩
  have h₅ := h₄.act 2 () _ rfl ⟨trivial, rfl, rfl⟩
  have h₆ := h₅.act 2 (⟨false, .ok⟩ : Entry) _ rfl ⟨trivial, rfl, rfl⟩
  have h₇ := h₆.act 2 () _ rfl ⟨trivial, rfl⟩
  -- the clone of the first call is there and finished
  have h₈ := h₇.act 2 true _ rfl ⟨fun _ _ => ⟨not_cloning rfl, rfl⟩, rfl, rfl⟩
  have h₉ := h₈.act 2 (⟨true, .ok⟩ : Entry) _ rfl ⟨trivial, rfl, rfl⟩
  have h₁₀ := h₉.act 2 () _ rfl ⟨trivial, rfl, rfl⟩
  have h₁₁ := @reached_runs _ 2 (.catFile (str "v1")) (.db key) _ _ h₁₀ rfl rfl rfl rfl
  have h₁₂ := h₁₁.act 2 (⟨true, .ok⟩ : Entry) _ rfl ⟨trivial, rfl, rfl⟩
  have h₁₃ := h₁₂.act 2 false _ rfl ⟨trivial, rfl, rfl⟩
  have h₁₄ := h₁₃.act 2 true _ rfl ⟨trivial, rfl⟩
  have h₁₅ := h₁₄.act 2 true _ rfl ⟨trivial, .inl ⟨rfl, rfl, rfl⟩⟩
  have h₁₆ := h₁₅.act 2 () _ rfl ⟨trivial, none, .inl ⟨rfl, fun _ => .inr rfl⟩, rfl⟩
  have h₁₇ := h₁₆.env _ (Works.write 2 cloneShared 1 rfl rfl (fun h => by cases h) rfl)
  have h₁₈ := h₁₇.env _ (Works.write 2 cloneShared 2 rfl rfl (fun h => by cases h) rfl)
  have h₁₉ := h₁₈.env _ (Works.exit 2 cloneShared 2 rfl rfl rfl rfl)
  have h₂₀ := h₁₉.act 2 true _ rfl ⟨trivial, ⟨_, rfl, rfl⟩, rfl⟩
  have h₂₁ := h₂₀.act 2 true _ rfl ⟨trivial, rfl⟩
  have h₂₂ := @reached_runs _ 2 (.checkout (str "v1")) stagedSpum _ _ h₂₁ rfl rfl rfl rfl
  have h₂₃ := @reached_runs _ 2 (.apply (str "fix")) stagedSpum _ _ h₂₂ rfl rfl rfl rfl
  have h₂₄ := h₂₃.act 2 true _ rfl ⟨trivial, .inl ⟨rfl, 2, rfl, .inl rfl, rfl⟩⟩
  have h₂₅ := h₂₄.act 2 () _ rfl ⟨trivial, rfl⟩
  have h₂₆ := h₂₅.act 2 (⟨true, .ok⟩ : Entry) _ rfl ⟨trivial, rfl, rfl⟩
  exact ⟨_, h₂₆, h0, rfl, rfl⟩

theorem asked_eq {asked : Str} (h : callers.Asked asked) : asked = url := by
  obtain ⟨c, hc⟩ := h
  rcases c with _ | _ | _ | _ | c <;> cases hc <;> rfl

theorem askedCheckout_eq {id : CheckoutId} (h : callers.AskedCheckout id) : id = spum := by
  obtain ⟨c, hc⟩ := h
  rcases c with _ | _ | _ | _ | c <;> cases hc
  rfl

theorem callers_distinct : callers.Distinct hashes where
  db _ _ h h' _ := (asked_eq h).trans (asked_eq h').symm
  checkout _ _ h h' _ := (askedCheckout_eq h).trans (askedCheckout_eq h').symm

end Half

/-- The bare clone that one call has made, and the checkout another made of it. -/
theorem cached_trees_complete_checkout : ∃ s : Cache ℕ,
    Complete Half.tools Half.hashes s (.db Half.url) ∧
      Complete Half.tools Half.hashes s (.checkout Half.spum) := by
  obtain ⟨cfg, hrun, hdb, hcheckout, -⟩ := Half.reached_checkedOut
  refine ⟨cfg.shared, ?_, ?_⟩
  · exact cached_trees_complete Half.callers_distinct hrun 0 hdb fun _ _ => Set.mem_univ _
  · exact cached_trees_complete Half.callers_distinct hrun 2 hcheckout fun _ _ => Set.mem_univ _

end Spn.Trees
