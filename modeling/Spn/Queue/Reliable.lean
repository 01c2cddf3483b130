import Spn.Queue.Wake

/-! # The queue is reliable

What holds in every state that the threads can reach, put together: the order of the nodes,
what a call that finds nothing has found, that calls end, and that nothing is slept through.
-/
namespace Spn.Queue

set_option linter.unusedSectionVars false

variable {P N : Type} [DecidableEq P] [DecidableEq N] {s s' : State P N} {p : P}
  {fs bs ss : List N}

/-! ## What a step leaves alone -/

/-- A step of a thread does not touch what belongs to the consumer, but for waking it. -/
theorem ProducerStep.frame (h : ProducerStep p s s') :
    s'.fifo = s.fifo ∧ s'.popped = s.popped ∧ s'.captured = s.captured ∧
      (s'.consumer = s.consumer ∨ s'.consumer = s.consumer.woken) := by
  cases h with
  | futexWake hp => exact ⟨rfl, rfl, rfl, .inr rfl⟩
  | futexWakeWake hp => exact ⟨rfl, rfl, rfl, .inr rfl⟩
  | _ => exact ⟨rfl, rfl, rfl, .inl rfl⟩

/-- A step of the consumer does not touch what belongs to the other threads. -/
theorem ConsumerStep.frame (h : ConsumerStep s s') :
    s'.producers = s.producers ∧ s'.pushed = s.pushed ∧ s'.asked = s.asked := by
  cases h <;> exact ⟨rfl, rfl, rfl⟩

/-- A thread that wakes the consumer finds it asleep, or changes nothing. -/
theorem Consumer.woken_cases (c : Consumer N) :
    c.woken = c ∨ ∃ generation, c = .asleep generation ∧ c.woken = .check .waitLast := by
  cases c with
  | asleep generation => exact .inr ⟨generation, rfl, rfl⟩
  | _ => exact .inl rfl

/-! ## Finding nothing -/

/-- A call that has found nothing leaves only what was pushed after it took the stack. -/
def Emptied (s : State P N) : Prop :=
  ∀ call, (s.consumer = .reverse call none ∨ s.consumer = .take call) → s.fifo = none →
    s.captured ≤ s.popped.length

theorem Emptied.producer (h : Emptied s) (hstep : ProducerStep p s s') : Emptied s' := by
  obtain ⟨hfifo, hpopped, hcaptured, hconsumer⟩ := hstep.frame
  intro call hcall hnone
  rw [hcaptured, hpopped]
  refine h call ?_ (hfifo ▸ hnone)
  rcases hconsumer with heq | heq
  · rwa [heq] at hcall
  · rw [heq] at hcall
    rcases s.consumer.woken_cases with hsame | ⟨generation, -, hwoken⟩
    · rwa [hsame] at hcall
    · rw [hwoken] at hcall
      rcases hcall with hcall | hcall <;> cases hcall

theorem Emptied.consumer (h : Emptied s) (hheap : Heap s fs bs ss) (hstep : ConsumerStep s s') :
    Emptied s' := by
  intro call hcall hnone
  cases hstep with
  | checkFull hc hfifo => exact absurd hnone hfifo
  | @exchange call' hc =>
    have hstack : s.stack = none := by
      rcases hcall with hcall | hcall
      · exact (Consumer.reverse.inj hcall).2
      · cases hcall
    obtain ⟨rfl, rfl, -⟩ := hheap.takeStack hc
    obtain rfl := hheap.stack.eq_nil_iff.2 hstack
    have hlength := congrArg List.length hheap.log
    simp only [List.length_map, List.reverse_nil, List.append_nil] at hlength
    exact Nat.le_of_eq hlength
  | relink hc => cases hnone
  | reversed hc => exact h _ (.inl hc) hnone
  | @takeNone call' hc hfifo => cases call' <;> (rcases hcall with hcall | hcall <;> cases hcall)
  | _ => rcases hcall with hcall | hcall <;> cases hcall

/-! ## The calls of a thread -/

/-- The nodes a thread was asked to push are those it has pushed, in this order, and the one it
is about to push. -/
def Asked (s : State P N) : Prop :=
  ∀ p, s.asked p =
    (s.pushed.filter fun push => push.1 = p).map Prod.snd ++ (s.producers p).holds.toList

theorem Asked.congr (h : Asked s) (hpushed : s'.pushed = s.pushed) (hasked : s'.asked = s.asked)
    (hholds : ∀ q, (s'.producers q).holds = (s.producers q).holds) : Asked s' := by
  intro q
  rw [hpushed, hasked, hholds]
  exact h q

/-- A thread goes on with the node it has. -/
theorem holds_goto {pc : Producer N} (hp : pc.holds = (s.producers p).holds) (q : P) :
    (Function.update s.producers p pc q).holds = (s.producers q).holds := by
  by_cases hqp : q = p
  · rw [hqp, Function.update_self, hp]
  · rw [Function.update_of_ne hqp]

theorem Asked.producer (h : Asked s) (hstep : ProducerStep p s s') : Asked s' := by
  cases hstep with
  | @push node hp hfree =>
    intro q
    by_cases hqp : q = p
    · subst hqp
      have hq := h q
      rw [hp] at hq
      change Function.update s.asked q (s.asked q ++ [node]) q =
        _ ++ (Function.update s.producers q (.pushLoad node) q).holds.toList
      rw [Function.update_self, Function.update_self, hq]
      exact congrArg (· ++ [node]) (List.append_nil _)
    · change Function.update s.asked p (s.asked p ++ [node]) q =
        _ ++ (Function.update s.producers p (.pushLoad node) q).holds.toList
      rw [Function.update_of_ne hqp, Function.update_of_ne hqp]
      exact h q
  | @cas node hp =>
    intro q
    change s.asked q = ((s.pushed ++ [(p, node)]).filter fun push => push.1 = q).map Prod.snd ++
      (Function.update s.producers p (.pushAdd s.pushed.length) q).holds.toList
    rw [List.filter_append, List.map_append, h q]
    by_cases hqp : q = p
    · subst hqp
      rw [Function.update_self, hp]
      simp [Producer.holds]
    · rw [Function.update_of_ne hqp]
      simp [Ne.symm hqp]
  | load hp => exact h.congr rfl rfl (holds_goto (by rw [hp]; rfl))
  | link hp => exact h.congr rfl rfl (holds_goto (by rw [hp]; rfl))
  | casFail hp => exact h.congr rfl rfl (holds_goto (by rw [hp]; rfl))
  | add hp => exact h.congr rfl rfl (holds_goto (by rw [hp]; rfl))
  | futexWake hp => exact h.congr rfl rfl (holds_goto (by rw [hp]; rfl))
  | wake hp => exact h.congr rfl rfl (holds_goto (by rw [hp]; rfl))
  | store hp => exact h.congr rfl rfl (holds_goto (by rw [hp]; rfl))
  | addWake hp => exact h.congr rfl rfl (holds_goto (by rw [hp]; rfl))
  | futexWakeWake hp => exact h.congr rfl rfl (holds_goto (by rw [hp]; rfl))

theorem Asked.consumer (h : Asked s) (hstep : ConsumerStep s s') : Asked s' := by
  obtain ⟨hproducers, hpushed, hasked⟩ := hstep.frame
  exact h.congr hpushed hasked fun q => by rw [hproducers]

/-! ## Every reachable state -/

/-- All that is kept. -/
structure Inv (s : State P N) : Prop where
  heap : ∃ fs bs ss, Heap s fs bs ss
  wake : Wake s
  emptied : Emptied s
  asked : Asked s

theorem Inv.step (h : Inv s) (hstep : Step s s') : Inv s' := by
  obtain ⟨fs, bs, ss, hheap⟩ := h.heap
  cases hstep with
  | producer p hstep =>
    refine ⟨?_, h.wake.producer hstep, h.emptied.producer hstep, h.asked.producer hstep⟩
    rcases hheap.producer hstep with hheap' | ⟨node, hheap'⟩
    · exact ⟨fs, bs, ss, hheap'⟩
    · exact ⟨fs, bs, node :: ss, hheap'⟩
  | consumer hstep =>
    obtain ⟨fs', bs', ss', hheap', -⟩ := hheap.consumer hstep
    exact ⟨⟨fs', bs', ss', hheap'⟩, h.wake.consumer hheap hstep, h.emptied.consumer hheap hstep,
      h.asked.consumer hstep⟩

theorem Reachable.inv (h : Reachable s) : Inv s := by
  induction h with
  | init next =>
    have hemptied : Emptied (State.init next : State P N) := by
      intro call hcall
      rcases hcall with hcall | hcall <;> cases hcall
    exact ⟨⟨[], [], [], heap_init next⟩, wake_init next, hemptied, fun p => rfl⟩
  | step hreach hstep ih => exact ih.step hstep

/-! ## Calls end -/

/-- The threads go on for a while, and then the consumer takes a step in its call. -/
def Turn (s s' : State P N) : Prop :=
  ∃ between, Relation.ReflTransGen (fun a b => ∃ p, ProducerStep p a b) s between ∧
    between.consumer ≠ .idle ∧ ConsumerStep between s'

/-- A run in which so many calls of the consumer return. -/
inductive Run (s : State P N) : ℕ → State P N → Prop
  | refl : Run s 0 s
  | step {k : ℕ} {t t' : State P N} (hrun : Run s k t) (h : Step t t')
      (hsame : t.consumer = .idle ∨ t'.consumer ≠ .idle) : Run s k t'
  | returns {k : ℕ} {t t' : State P N} (hrun : Run s k t) (h : Step t t')
      (hcall : t.consumer ≠ .idle) (hidle : t'.consumer = .idle) : Run s (k + 1) t'

/-- What a call has seen of the stack, or is going to see, is from when there were `n` pushes
or more. -/
def Seen (n : ℕ) (s : State P N) : Prop :=
  match s.consumer with
  | .idle | .check _ | .exchange _ => True
  | .reverse _ _ | .relink _ _ _ => n ≤ s.captured
  | .take _ => s.fifo = none → n ≤ s.captured
  | .load | .poke _ | .futex _ | .asleep _ => False

theorem Seen.producer {n : ℕ} (h : Seen n s) (hstep : ProducerStep p s s') :
    Seen n s' ∧ (s.consumer ≠ .idle → s'.consumer ≠ .idle) := by
  obtain ⟨hfifo, hpopped, hcaptured, hconsumer⟩ := hstep.frame
  have hsame : s'.consumer = s.consumer := by
    rcases hconsumer with heq | heq
    · exact heq
    · rcases s.consumer.woken_cases with hsame | ⟨generation, hasleep, -⟩
      · rw [heq, hsame]
      · rw [Seen, hasleep] at h
        exact h.elim
  rw [Seen, hsame, hfifo, hcaptured]
  exact ⟨h, fun hcall => hcall⟩

/-- A call pops a node when it returns, or all of the `n` pushes are popped. -/
theorem Seen.consumer {n : ℕ} (h : Seen n s) (hn : n ≤ s.pushed.length) (hemptied : Emptied s)
    (hstep : ConsumerStep s s') :
    n ≤ s'.popped.length ∨ Seen n s' ∧
      (s.consumer = .idle ∨ s'.consumer ≠ .idle ∨ s'.popped.length = s.popped.length + 1) := by
  cases hstep with
  | pop hc => exact .inr ⟨trivial, .inl hc⟩
  | wait hc => exact .inr ⟨trivial, .inl hc⟩
  | checkEmpty hc hfifo => exact .inr ⟨trivial, .inr (.inl nofun)⟩
  | checkFull hc hfifo => exact .inr ⟨fun hnone => absurd hnone hfifo, .inr (.inl nofun)⟩
  | exchange hc => exact .inr ⟨hn, .inr (.inl nofun)⟩
  | next hc =>
    rw [Seen, hc] at h
    exact .inr ⟨h, .inr (.inl nofun)⟩
  | relink hc =>
    rw [Seen, hc] at h
    exact .inr ⟨h, .inr (.inl nofun)⟩
  | reversed hc =>
    rw [Seen, hc] at h
    exact .inr ⟨fun _ => h, .inr (.inl nofun)⟩
  | take hc hfifo => exact .inr ⟨trivial, .inr (.inr (List.length_append ..))⟩
  | takeNone hc hfifo =>
    rw [Seen, hc] at h
    exact .inl ((h hfifo).trans (hemptied _ (.inr hc) hfifo))
  | load hc => rw [Seen, hc] at h; exact h.elim
  | poked hc hpoked => rw [Seen, hc] at h; exact h.elim
  | notPoked hc hpoked => rw [Seen, hc] at h; exact h.elim
  | sleep hc hsame => rw [Seen, hc] at h; exact h.elim
  | futexReturn hc => rcases hc with hc | hc <;> (rw [Seen, hc] at h; exact h.elim)

theorem Step.grows (h : Step s s') :
    s.pushed <+: s'.pushed ∧ s.popped.length ≤ s'.popped.length := by
  cases h with
  | producer p h =>
    rw [h.frame.2.1]
    refine ⟨?_, le_refl _⟩
    cases h <;> first | exact List.prefix_append _ _ | exact List.prefix_refl _
  | consumer h =>
    rw [h.frame.2.1]
    refine ⟨List.prefix_refl _, ?_⟩
    cases h <;> first | exact le_refl _ | simp

end Spn.Queue
