import Spn.Queue.Order

/-! # Waking up

A consumer that goes to sleep has found nothing after it read the counter. What was pushed
since then is pushed by a thread that has not added to the counter yet, or the counter is
another one; and a thread that has added to the counter wakes the consumer.
-/
namespace Spn.Queue

set_option linter.unusedSectionVars false

variable {P N : Type} [DecidableEq P] [DecidableEq N] {s s' : State P N} {p : P}
  {fs bs ss : List N}

/-- The place of a push that has succeeded and whose node was not popped. -/
def State.Pending (s : State P N) (place : ℕ) : Prop :=
  s.popped.length ≤ place ∧ place < s.pushed.length

def Call.generation : Call → Option ℕ
  | .waitSecond generation => some generation
  | _ => none

/-- The counter as the consumer has read it. -/
def Consumer.generation : Consumer N → Option ℕ
  | .check call | .exchange call | .reverse call _ | .relink call _ _ | .take call =>
    call.generation
  | .poke generation | .futex generation => some generation
  | _ => none

/-- The counter as the consumer has read it, after it has found nothing. -/
def Consumer.nothing (fifo : Option N) : Consumer N → Option ℕ
  | .reverse call none | .take call => if fifo.isNone then call.generation else none
  | .poke generation | .futex generation => some generation
  | _ => none

structure Wake (s : State P N) : Prop where
  generation : ∀ g, s.consumer.generation = some g → g ≤ s.pushes
  nothing : ∀ g, s.consumer.nothing s.fifo = some g → ∀ place, s.Pending place →
    (∃ p, s.producers p = .pushAdd place) ∨ g < s.pushes
  asleep : ∀ g, s.consumer = .asleep g → ∀ place, s.Pending place →
    ∃ p, s.producers p = .pushAdd place ∨ s.producers p = .pushWake place
  poked : ∀ g, s.consumer = .futex g → ∀ p ∈ s.pokers, s.producers p = .wakeAdd ∨ g < s.pushes
  pokedAsleep : ∀ g, s.consumer = .asleep g →
    ∀ p ∈ s.pokers, s.producers p = .wakeAdd ∨ s.producers p = .wakeWake
  marked : s.poked = true → s.pokers ≠ []

theorem wake_init (next : N → Option N) : Wake (State.init next : State P N) where
  generation _ h := by cases h
  nothing _ h := by cases h
  asleep _ h := by cases h
  poked _ h := by cases h
  pokedAsleep _ h := by cases h
  marked h := by cases h

namespace Wake

/-- Where another thread is. -/
theorem other {f : P → Producer N} {q : P} {pc pc' : Producer N} (h : f q = pc) (hp : f p ≠ pc) :
    Function.update f p pc' q = pc := by
  have hqp : q ≠ p := by
    rintro rfl
    exact hp h
  rw [Function.update_of_ne hqp, h]

theorem generation_of_nothing {c : Consumer N} {fifo : Option N} {g : ℕ}
    (h : c.nothing fifo = some g) : c.generation = some g := by
  unfold Consumer.nothing at h
  split at h
  · exact (Option.ite_none_right_eq_some.1 h).2
  · exact (Option.ite_none_right_eq_some.1 h).2
  · exact h
  · exact h
  · cases h

/-- A thread that is not on its way to the counter or to the futex goes on. -/
theorem goto (h : Wake s) {pc : Producer N} (hadd : ∀ place, s.producers p ≠ .pushAdd place)
    (hwake : ∀ place, s.producers p ≠ .pushWake place) (hadd' : s.producers p ≠ .wakeAdd)
    (hwake' : s.producers p ≠ .wakeWake) : Wake (s.goto p pc) where
  generation := h.generation
  nothing g hg place hplace := by
    rcases h.nothing g hg place hplace with ⟨q, hq⟩ | hlt
    · exact .inl ⟨q, other hq (hadd place)⟩
    · exact .inr hlt
  asleep g hg place hplace := by
    obtain ⟨q, hq | hq⟩ := h.asleep g hg place hplace
    · exact ⟨q, .inl (other hq (hadd place))⟩
    · exact ⟨q, .inr (other hq (hwake place))⟩
  poked g hg q hq := (h.poked g hg q hq).imp_left fun hq => other hq hadd'
  pokedAsleep g hg q hq :=
    (h.pokedAsleep g hg q hq).imp (fun hq => other hq hadd') fun hq => other hq hwake'
  marked := h.marked

/-- The consumer wakes up, whoever wakes it. -/
theorem woken (h : Wake s) {pc : Producer N} (hadd : ∀ place, s.producers p ≠ .pushAdd place)
    (hadd' : s.producers p ≠ .wakeAdd) : Wake ((s.goto p pc).enter s.consumer.woken) where
  generation g hg := by
    refine h.generation g ?_
    cases hc : s.consumer <;> (rw [hc] at hg; exact hg)
  nothing g hg place hplace := by
    have hnothing : s.consumer.nothing s.fifo = some g := by
      cases hc : s.consumer <;> (rw [hc] at hg; exact hg)
    rcases h.nothing g hnothing place hplace with ⟨q, hq⟩ | hlt
    · exact .inl ⟨q, other hq (hadd place)⟩
    · exact .inr hlt
  asleep g hg := by
    rw [State.enter_consumer] at hg
    cases hc : s.consumer <;> (rw [hc] at hg; cases hg)
  poked g hg q hq := by
    have hfutex : s.consumer = .futex g := by
      rw [State.enter_consumer] at hg
      cases hc : s.consumer <;> (rw [hc] at hg; first | exact hg | cases hg)
    exact (h.poked g hfutex q hq).imp_left fun hq => other hq hadd'
  pokedAsleep g hg := by
    rw [State.enter_consumer] at hg
    cases hc : s.consumer <;> (rw [hc] at hg; cases hg)
  marked := h.marked

theorem cas (h : Wake s) {node : N} (hp : s.producers p = .pushCas node s.stack) :
    Wake ({ s with stack := some node, pushed := s.pushed ++ [(p, node)] }.goto p
      (.pushAdd s.pushed.length)) where
  generation := h.generation
  nothing g hg place hplace := by
    by_cases hlast : place = s.pushed.length
    · exact .inl ⟨p, by rw [State.goto_producers, Function.update_self, hlast]⟩
    · have hlt := hplace.2
      simp only [State.goto_pushed, List.length_append, List.length_singleton] at hlt
      rcases h.nothing g hg place ⟨hplace.1, by omega⟩ with ⟨q, hq⟩ | hlt
      · exact .inl ⟨q, other hq (by rw [hp]; nofun)⟩
      · exact .inr hlt
  asleep g hg place hplace := by
    by_cases hlast : place = s.pushed.length
    · exact ⟨p, .inl (by rw [State.goto_producers, Function.update_self, hlast])⟩
    · have hlt := hplace.2
      simp only [State.goto_pushed, List.length_append, List.length_singleton] at hlt
      obtain ⟨q, hq | hq⟩ := h.asleep g hg place ⟨hplace.1, by omega⟩
      · exact ⟨q, .inl (other hq (by rw [hp]; nofun))⟩
      · exact ⟨q, .inr (other hq (by rw [hp]; nofun))⟩
  poked g hg q hq := (h.poked g hg q hq).imp_left fun hq => other hq (by rw [hp]; nofun)
  pokedAsleep g hg q hq := (h.pokedAsleep g hg q hq).imp
    (fun hq => other hq (by rw [hp]; nofun)) fun hq => other hq (by rw [hp]; nofun)
  marked := h.marked

/-- Where the counter moves, no generation that was read is the counter any more. -/
theorem add (h : Wake s) {place : ℕ} (hp : s.producers p = .pushAdd place) :
    Wake ({ s with pushes := s.pushes + 1 }.goto p (.pushWake place)) where
  generation g hg := Nat.le_succ_of_le (h.generation g hg)
  nothing g hg _ _ := .inr (Nat.lt_succ_of_le (h.generation g (generation_of_nothing hg)))
  asleep g hg place' hplace := by
    obtain ⟨q, hq | hq⟩ := h.asleep g hg place' hplace
    · by_cases hqp : q = p
      · rw [hqp, hp, Producer.pushAdd.injEq] at hq
        exact ⟨p, .inr (by rw [State.goto_producers, Function.update_self, hq])⟩
      · exact ⟨q, .inl ((Function.update_of_ne hqp ..).trans hq)⟩
    · exact ⟨q, .inr (other hq (by rw [hp]; nofun))⟩
  poked g hg _ _ := by
    have hread : s.consumer.generation = some g := by
      rw [show s.consumer = _ from hg]
      rfl
    exact .inr (Nat.lt_succ_of_le (h.generation g hread))
  pokedAsleep g hg q hq := (h.pokedAsleep g hg q hq).imp
    (fun hq => other hq (by rw [hp]; nofun)) fun hq => other hq (by rw [hp]; nofun)
  marked := h.marked

theorem addWake (h : Wake s) (hp : s.producers p = .wakeAdd) :
    Wake ({ s with pushes := s.pushes + 1 }.goto p .wakeWake) where
  generation g hg := Nat.le_succ_of_le (h.generation g hg)
  nothing g hg _ _ := .inr (Nat.lt_succ_of_le (h.generation g (generation_of_nothing hg)))
  asleep g hg place hplace := by
    obtain ⟨q, hq | hq⟩ := h.asleep g hg place hplace
    · exact ⟨q, .inl (other hq (by rw [hp]; nofun))⟩
    · exact ⟨q, .inr (other hq (by rw [hp]; nofun))⟩
  poked g hg _ _ := by
    have hread : s.consumer.generation = some g := by
      rw [show s.consumer = _ from hg]
      rfl
    exact .inr (Nat.lt_succ_of_le (h.generation g hread))
  pokedAsleep g hg q hq := by
    by_cases hqp : q = p
    · exact .inr (by rw [hqp]; exact Function.update_self ..)
    · exact (h.pokedAsleep g hg q hq).imp (fun hq => (Function.update_of_ne hqp ..).trans hq)
        fun hq => (Function.update_of_ne hqp ..).trans hq
  marked := h.marked

theorem store (h : Wake s) (hp : s.producers p = .wakeStore) :
    Wake ({ s with poked := true, pokers := p :: s.pokers }.goto p .wakeAdd) where
  generation := h.generation
  nothing g hg place hplace :=
    (h.nothing g hg place hplace).imp_left fun ⟨q, hq⟩ => ⟨q, other hq (by rw [hp]; nofun)⟩
  asleep g hg place hplace := by
    obtain ⟨q, hq | hq⟩ := h.asleep g hg place hplace
    · exact ⟨q, .inl (other hq (by rw [hp]; nofun))⟩
    · exact ⟨q, .inr (other hq (by rw [hp]; nofun))⟩
  poked g hg q hq := by
    rcases List.mem_cons.1 hq with rfl | hq
    · exact .inl (Function.update_self ..)
    · exact (h.poked g hg q hq).imp_left fun hq => other hq (by rw [hp]; nofun)
  pokedAsleep g hg q hq := by
    rcases List.mem_cons.1 hq with rfl | hq
    · exact .inl (Function.update_self ..)
    · exact (h.pokedAsleep g hg q hq).imp
        (fun hq => other hq (by rw [hp]; nofun)) fun hq => other hq (by rw [hp]; nofun)
  marked _ := List.cons_ne_nil _ _

theorem producer (h : Wake s) (hstep : ProducerStep p s s') : Wake s' := by
  cases hstep with
  | @push node hp hfree =>
    have hgoto : Wake (s.goto p (.pushLoad node)) :=
      h.goto (by rw [hp]; nofun) (by rw [hp]; nofun) (by rw [hp]; nofun) (by rw [hp]; nofun)
    exact ⟨hgoto.generation, hgoto.nothing, hgoto.asleep, hgoto.poked, hgoto.pokedAsleep,
      hgoto.marked⟩
  | load hp =>
    exact h.goto (by rw [hp]; nofun) (by rw [hp]; nofun) (by rw [hp]; nofun) (by rw [hp]; nofun)
  | @link node head hp =>
    have hgoto : Wake (s.goto p (.pushCas node head)) :=
      h.goto (by rw [hp]; nofun) (by rw [hp]; nofun) (by rw [hp]; nofun) (by rw [hp]; nofun)
    exact ⟨hgoto.generation, hgoto.nothing, hgoto.asleep, hgoto.poked, hgoto.pokedAsleep,
      hgoto.marked⟩
  | cas hp => exact h.cas hp
  | casFail hp =>
    exact h.goto (by rw [hp]; nofun) (by rw [hp]; nofun) (by rw [hp]; nofun) (by rw [hp]; nofun)
  | add hp => exact h.add hp
  | futexWake hp => exact h.woken (by rw [hp]; nofun) (by rw [hp]; nofun)
  | wake hp =>
    exact h.goto (by rw [hp]; nofun) (by rw [hp]; nofun) (by rw [hp]; nofun) (by rw [hp]; nofun)
  | store hp => exact h.store hp
  | addWake hp => exact h.addWake hp
  | futexWakeWake hp => exact h.woken (by rw [hp]; nofun) (by rw [hp]; nofun)

/-- The consumer goes on, without going to the futex. -/
theorem enter (h : Wake s) {pc : Consumer N}
    (hgeneration : ∀ g, pc.generation = some g → g ≤ s.pushes)
    (hnothing : ∀ g, pc.nothing s.fifo = some g → ∀ place, s.Pending place →
      (∃ p, s.producers p = .pushAdd place) ∨ g < s.pushes)
    (hfutex : ∀ g, pc ≠ .futex g) (hasleep : ∀ g, pc ≠ .asleep g) : Wake (s.enter pc) where
  generation := hgeneration
  nothing := hnothing
  asleep g hg := absurd hg (hasleep g)
  poked g hg := absurd hg (hfutex g)
  pokedAsleep g hg := absurd hg (hasleep g)
  marked := h.marked

theorem consumer (h : Wake s) (hheap : Heap s fs bs ss) (hstep : ConsumerStep s s') : Wake s' := by
  -- after the stack was exchanged for nothing, all that was pushed is popped
  have hpopped : bs = [] → fs = [] → ss = [] → s.pushed.length = s.popped.length := by
    rintro rfl rfl rfl
    have hlength := congrArg List.length hheap.log
    simpa using hlength
  cases hstep with
  | pop hc => exact h.enter nofun nofun nofun nofun
  | wait hc => exact h.enter nofun nofun nofun nofun
  | checkEmpty hc hfifo =>
    exact h.enter (fun g hg => h.generation g (by rw [hc]; exact hg)) nofun nofun nofun
  | checkFull hc hfifo =>
    refine h.enter (fun g hg => h.generation g (by rw [hc]; exact hg)) (fun g hg => ?_) nofun nofun
    exact absurd (Option.isNone_iff_eq_none.1 (Option.ite_none_right_eq_some.1 hg).1) hfifo
  | @exchange call hc =>
    refine ⟨fun g hg => h.generation g (by rw [hc]; exact hg), fun g hg place hplace => ?_, nofun,
      nofun, nofun, h.marked⟩
    have hstack : s.stack = none := by
      cases hstack : s.stack with
      | none => rfl
      | some node =>
        rw [State.enter_consumer, hstack] at hg
        cases hg
    have hlength := hpopped (hheap.batch_nil (by rw [hc]; rfl)) (hheap.exchange call hc)
      (hheap.stack.eq_nil_iff.2 hstack)
    obtain ⟨hle, hlt⟩ := hplace
    simp only [State.enter_popped, State.enter_pushed] at hle hlt
    omega
  | next hc => exact h.enter (fun g hg => h.generation g (by rw [hc]; exact hg)) nofun nofun nofun
  | @relink call batch next hc =>
    refine ⟨fun g hg => h.generation g (by rw [hc]; exact hg), fun g hg => ?_, nofun, nofun, nofun,
      h.marked⟩
    cases next <;> cases hg
  | reversed hc =>
    refine h.enter (fun g hg => h.generation g (by rw [hc]; exact hg)) (fun g hg => ?_) nofun nofun
    exact h.nothing g (by rw [hc]; exact hg)
  | take hc hfifo => exact ⟨nofun, nofun, nofun, nofun, nofun, h.marked⟩
  | @takeNone call hc hfifo =>
    cases call with
    | waitSecond generation =>
      refine h.enter (fun g hg => h.generation g (by rw [hc]; exact hg)) (fun g hg => ?_) nofun
        nofun
      refine h.nothing g ?_
      rw [hc, hfifo]
      exact hg
    | _ => exact h.enter nofun nofun nofun nofun
  | load hc =>
    refine h.enter (fun g hg => ?_) nofun nofun nofun
    obtain rfl : s.pushes = g := Option.some.inj hg
    exact Nat.le_refl _
  | poked hc hpoked => exact ⟨nofun, nofun, nofun, nofun, nofun, nofun⟩
  | notPoked hc hpoked =>
    refine ⟨fun g hg => h.generation g (by rw [hc]; exact hg), fun g hg => ?_, nofun, ?_, nofun, ?_⟩
    · exact h.nothing g (by rw [hc]; exact hg)
    · exact fun g hg p hp => by cases hp
    · intro hmark
      rw [show s.poked = true from hmark] at hpoked
      cases hpoked
  | @sleep generation hc hsame =>
    have hnothing := h.nothing generation (by rw [hc]; rfl)
    have hpoked := h.poked generation hc
    refine ⟨nofun, nofun, fun g hg place hplace => ?_, nofun, fun g hg p hp => ?_, h.marked⟩
    · obtain ⟨p, hp⟩ := (hnothing place hplace).resolve_right (by omega)
      exact ⟨p, .inl hp⟩
    · exact .inl ((hpoked p hp).resolve_right (by omega))
  | futexReturn hc => exact h.enter nofun nofun nofun nofun

end Wake
end Spn.Queue
