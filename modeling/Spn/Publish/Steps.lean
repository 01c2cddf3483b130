import Spn.Publish.Git

/-! # Publishers

`spn_index_publish` as a publisher runs it, a command at a time, and any number of
publishers around one branch. A command may fail, and leave the files, the stage and the
head of its clone in any state; a publisher may die between two commands, and a clone that
nobody works on may be changed by hand. The branch takes pushes that fast-forward it.
-/
namespace Spn.Publish

open Spn.Lib

/-- The errors of `spn_index_publish`. -/
inductive PublishErr
  | sync | corrupt | versionExists | git (command : String) | push | pinned | protocol
  deriving DecidableEq, Repr

/-- The next command of a call: those of `git_index_freshen`, with its attempt, and those
of `publish_git`. -/
inductive Pc
  | fetch (attempt : ℕ)
  | branch (attempt : ℕ)
  | clean (attempt : ℕ)
  | read | append | detect | add | commit | push
  deriving DecidableEq, Repr

/-- A call of `spn_index_publish`: which one it is, the attempt of `publish_git`,
`dirtied`, and the error it cleans up after. -/
structure Call where
  number : ℕ
  release : Release
  attempt : ℕ
  dirtied : Bool
  failed : Option PublishErr
  pc : Pc
  deriving DecidableEq, Repr

namespace Call

/-- The path of the package file. -/
def path (k : Call) : Str := jsonlPath k.release.id

def goto (k : Call) (pc : Pc) : Call := { k with pc := pc }

/-- A call at its beginning. -/
def start (number : ℕ) (release : Release) : Call := ⟨number, release, 0, false, none, .fetch 0⟩

end Call

/-- A publisher: its clone, the call it is in, and how many it has begun. -/
structure Publisher where
  clone : Option Clone
  call : Option Call
  calls : ℕ

/-- What others see of a turn: nothing, that a call returned, or that its push moved the
branch, after which it returns without an error. -/
inductive Outcome
  | quiet
  | returned (number : ℕ) (release : Release) (err : Option PublishErr)
  | advanced (number : ℕ) (release : Release) (head : History)

/-- The attempts of `publish_git`, `SPN_INDEX_PUBLISH_ATTEMPTS`. -/
def publishAttempts : ℕ := 3

/-- The commands that succeed, and the ways to go on from those that do not. -/
inductive Event
  | begin (release : Release)
  | refuse (release : Release) (err : PublishErr)
  | clone | cloneFailed | fetch (follow : Bool) | fetchFailed
  | checkout | checkoutFailed | keep | reclone | clean | cleanFailed | giveUp
  | read | append (written : Str) | detect | detectFailed
  | add | addFailed | commit (stamp : ℕ) | commitFailed | push | pushRejected
  | crash | damage
  deriving DecidableEq, Repr

/-- The end of a call. -/
def Publisher.finish (p : Publisher) (k : Call) (err : Option PublishErr) : Publisher × Outcome :=
  ({ p with call := none }, .returned k.number k.release err)

/-- An error of `publish_git`: after the clone was changed it is freshened first. -/
def Publisher.fail (p : Publisher) (k : Call) (err : PublishErr) : Publisher × Outcome :=
  if k.dirtied then
    ({ p with call := some { k with failed := some err, pc := .fetch 0 } }, .quiet)
  else p.finish k (some err)

/-- An error of `git_index_freshen`: the one after an error is not looked at. -/
def Publisher.stale (p : Publisher) (k : Call) : Publisher × Outcome :=
  match k.failed with
  | none => p.fail k .sync
  | some err => p.finish k (some err)

/-- `git_index_freshen` is done. -/
def Publisher.freshened (p : Publisher) (k : Call) : Publisher × Outcome :=
  match k.failed with
  | none => ({ p with call := some { k with dirtied := false, pc := .read } }, .quiet)
  | some err => p.finish k (some err)

/-- `index_release_exists`, and what `publish_git` makes of it. -/
def lookup (F : Format) (c : Clone) (release : Release) : Option PublishErr :=
  match c.work (jsonlPath release.id) with
  | none => none
  | some blob =>
    match parsePkg F release.id blob with
    | none => some .corrupt
    | some releases =>
      if releases.any fun other => other.version = release.version then some .versionExists
      else none

/-- What a command that fails leaves: the branch as it was fetched. -/
def Clone.Scrambled (c c' : Clone) : Prop := c'.origin = c.origin ∧ c'.originHead = c.originHead

/-- A turn of a publisher, with the branch as it is. -/
inductive Turn (F : Format) (remote : History) :
    Publisher → Event → Publisher × Outcome → Prop
  | begin {p : Publisher} (release : Release) : p.call = none →
      Turn F remote p (.begin release)
        ({ p with call := some (Call.start p.calls release), calls := p.calls + 1 }, .quiet)
  | refuse {p : Publisher} (release : Release) {err : PublishErr} : p.call = none →
      err = .pinned ∨ err = .protocol →
      Turn F remote p (.refuse release err)
        ({ p with calls := p.calls + 1 }, .returned p.calls release (some err))
  | clone {p : Publisher} {k : Call} {a : ℕ} : p.call = some k → k.pc = .fetch a → a < 2 →
      0 < a ∨ p.clone = none →
      Turn F remote p .clone
        ({ p with clone := some (cloned remote), call := some (k.goto (.branch a)) }, .quiet)
  | cloneFailed {p : Publisher} {k : Call} {a : ℕ} : p.call = some k → k.pc = .fetch a → a < 2 →
      0 < a ∨ p.clone = none →
      Turn F remote p .cloneFailed (({ p with clone := none } : Publisher).stale k)
  | fetch {p : Publisher} {k : Call} {c : Clone} (follow : Bool) : p.call = some k →
      k.pc = .fetch 0 → p.clone = some c →
      Turn F remote p (.fetch follow)
        ({ p with clone := some (c.fetch remote follow), call := some (k.goto (.branch 0)) }, .quiet)
  | fetchFailed {p : Publisher} {k : Call} {c c' : Clone} : p.call = some k →
      k.pc = .fetch 0 → p.clone = some c → c.Scrambled c' →
      Turn F remote p .fetchFailed
        ({ p with clone := some c', call := some (k.goto (.fetch 1)) }, .quiet)
  | checkout {p : Publisher} {k : Call} {c : Clone} {a : ℕ} : p.call = some k →
      k.pc = .branch a → p.clone = some c → c.originHead = true → c.origin ≠ [] →
      Turn F remote p .checkout
        ({ p with clone := some c.checkout, call := some (k.goto (.clean a)) }, .quiet)
  | checkoutFailed {p : Publisher} {k : Call} {c c' : Clone} {a : ℕ} : p.call = some k →
      k.pc = .branch a → p.clone = some c → c.originHead = true → c.Scrambled c' →
      Turn F remote p .checkoutFailed
        ({ p with clone := some c', call := some (k.goto (.fetch (a + 1))) }, .quiet)
  | keep {p : Publisher} {k : Call} {c : Clone} {a : ℕ} : p.call = some k →
      k.pc = .branch a → p.clone = some c → c.originHead = false → c.origin = [] → c.head = [] →
      Turn F remote p .keep ({ p with call := some (k.goto (.clean a)) }, .quiet)
  | reclone {p : Publisher} {k : Call} {c : Clone} {a : ℕ} : p.call = some k →
      k.pc = .branch a → p.clone = some c → c.originHead = false → c.origin ≠ [] ∨ c.head ≠ [] →
      Turn F remote p .reclone ({ p with call := some (k.goto (.fetch (a + 1))) }, .quiet)
  | clean {p : Publisher} {k : Call} {c : Clone} {a : ℕ} : p.call = some k → k.pc = .clean a →
      p.clone = some c →
      Turn F remote p .clean (({ p with clone := some c.clean } : Publisher).freshened k)
  | cleanFailed {p : Publisher} {k : Call} {c c' : Clone} {a : ℕ} : p.call = some k →
      k.pc = .clean a → p.clone = some c → c.Scrambled c' →
      Turn F remote p .cleanFailed
        ({ p with clone := some c', call := some (k.goto (.fetch (a + 1))) }, .quiet)
  | giveUp {p : Publisher} {k : Call} {a : ℕ} : p.call = some k → k.pc = .fetch a → 2 ≤ a →
      Turn F remote p .giveUp (p.stale k)
  | read {p : Publisher} {k : Call} {c : Clone} : p.call = some k → k.pc = .read →
      p.clone = some c →
      Turn F remote p .read
        (match lookup F c k.release with
        | none => ({ p with call := some (k.goto .append) }, .quiet)
        | some err => p.fail k err)
  | append {p : Publisher} {k : Call} {c : Clone} {written : Str} : p.call = some k →
      k.pc = .append → p.clone = some c → written <+: F.write k.release ++ [newline] →
      Turn F remote p (.append written)
        ({ p with
          clone := some (c.append k.path written)
          call := some { k with dirtied := true, pc := .detect } }, .quiet)
  | detect {p : Publisher} {k : Call} : p.call = some k → k.pc = .detect →
      Turn F remote p .detect ({ p with call := some (k.goto .add) }, .quiet)
  | detectFailed {p : Publisher} {k : Call} : p.call = some k → k.pc = .detect →
      Turn F remote p .detectFailed (p.fail k (.git "git symbolic-ref HEAD"))
  | add {p : Publisher} {k : Call} {c : Clone} : p.call = some k → k.pc = .add →
      p.clone = some c → c.work k.path ≠ none →
      Turn F remote p .add
        ({ p with clone := some (c.add k.path), call := some (k.goto .commit) }, .quiet)
  | addFailed {p : Publisher} {k : Call} {c c' : Clone} : p.call = some k → k.pc = .add →
      p.clone = some c → c.Scrambled c' →
      Turn F remote p .addFailed
        (({ p with clone := some c' } : Publisher).fail k (.git "git add"))
  | commit {p : Publisher} {k : Call} {c : Clone} (stamp : ℕ) : p.call = some k →
      k.pc = .commit → p.clone = some c → c.index ≠ c.head.tree →
      Turn F remote p (.commit stamp)
        ({ p with clone := some (c.commit stamp), call := some (k.goto .push) }, .quiet)
  | commitFailed {p : Publisher} {k : Call} {c c' : Clone} : p.call = some k → k.pc = .commit →
      p.clone = some c → c.Scrambled c' →
      Turn F remote p .commitFailed
        (({ p with clone := some c' } : Publisher).fail k (.git "git commit"))
  | pushAdvances {p : Publisher} {k : Call} {c : Clone} : p.call = some k → k.pc = .push →
      p.clone = some c → remote <:+ c.head → c.head ≠ remote →
      Turn F remote p .push ({ p with call := none }, .advanced k.number k.release c.head)
  | pushUpToDate {p : Publisher} {k : Call} {c : Clone} : p.call = some k → k.pc = .push →
      p.clone = some c → c.head = remote →
      Turn F remote p .push (p.finish k none)
  | pushRejected {p : Publisher} {k : Call} : p.call = some k → k.pc = .push →
      Turn F remote p .pushRejected
        (if k.attempt + 1 < publishAttempts then
          ({ p with call := some { k with attempt := k.attempt + 1, pc := .fetch 0 } }, .quiet)
        else p.fail k .push)
  | crash {p : Publisher} {k : Call} {c' : Option Clone} : p.call = some k →
      (∀ c ∈ p.clone, ∃ s, c' = some s ∧ c.Scrambled s) → (p.clone = none → c' = none) →
      Turn F remote p .crash ({ p with call := none, clone := c' }, .quiet)
  | damage {p : Publisher} {c c' : Clone} : p.call = none → p.clone = some c →
      c.Scrambled c' → Turn F remote p .damage ({ p with clone := some c' }, .quiet)

/-- The publishers and the branch. What calls returned and which of them moved the branch
are notes, which no function of the source reads. -/
structure World where
  remote : History
  publishers : ℕ → Publisher
  returned : List ((ℕ × ℕ) × Release × Option PublishErr)
  pushed : List ((ℕ × ℕ) × Release)

/-- The world after a turn of publisher `i`. -/
def World.after (w : World) (i : ℕ) (turn : Publisher × Outcome) : World :=
  let w := { w with publishers := Function.update w.publishers i turn.1 }
  match turn.2 with
  | .quiet => w
  | .returned number release err => { w with returned := w.returned ++ [((i, number), release, err)] }
  | .advanced number release head =>
    { w with
      remote := head
      returned := w.returned ++ [((i, number), release, none)]
      pushed := w.pushed ++ [((i, number), release)] }

/-- A turn of any publisher that meets the condition. -/
def World.Step (F : Format) (C : Publisher → Event → Prop) (w w' : World) : Prop :=
  ∃ i event turn, Turn F w.remote (w.publishers i) event turn ∧ C (w.publishers i) event ∧
    w' = w.after i turn

/-- A run, every turn of which meets the condition. -/
def World.Reaches (F : Format) (C : Publisher → Event → Prop) : World → World → Prop :=
  Relation.ReflTransGen (World.Step F C)

/-- Nobody is publishing, and every clone was made of the branch. -/
structure World.Idle (w : World) : Prop where
  call : ∀ i, (w.publishers i).call = none
  clone : ∀ i c, (w.publishers i).clone = some c → c.origin <:+ w.remote
  returned : w.returned = []
  pushed : w.pushed = []

/-- The lines of a package file on the branch. -/
def World.lines (w : World) (path : Str) : List Str :=
  Lib.lines newline ((w.remote.tree path).getD [])

end Spn.Publish
