import Spn.Lib.Linked
import Spn.Queue.Types

/-! # The order of the queue

What was pushed is what was popped and then what is still linked: the rest of the batch, the
list of the consumer, and the stack. A node that a thread is about to push is in none of
these, so nobody else writes its `next`, and it makes no difference whether the head of the
stack was popped and pushed again in the meantime.
-/
namespace Spn.Queue

open Spn.Lib

set_option linter.unusedSectionVars false

variable {P N : Type} [DecidableEq P] [DecidableEq N] {s s' : State P N} {p : P}
  {fs bs ss : List N}

/-- What the consumer has taken from the stack and not yet turned around. -/
def Consumer.batch : Consumer N → Option N
  | .reverse _ batch => batch
  | .relink _ batch _ => some batch
  | _ => none

/-- The list of the consumer, the batch and the stack are these nodes. -/
structure Heap (s : State P N) (fs bs ss : List N) : Prop where
  fifo : Linked s.next s.fifo fs
  batch : Linked s.next s.consumer.batch bs
  stack : Linked s.next s.stack ss
  log : s.pushed.map Prod.snd = s.popped ++ (bs.reverse ++ (fs ++ ss.reverse))
  nodup : (bs ++ (fs ++ ss)).Nodup
  held : ∀ p node, (s.producers p).holds = some node → node ∉ bs ++ (fs ++ ss)
  alone : ∀ p q node, (s.producers p).holds = some node → (s.producers q).holds = some node → p = q
  linked : ∀ p node head, s.producers p = .pushCas node head → s.next node = head
  relink : ∀ call batch next, s.consumer = .relink call batch next → s.next batch = next
  exchange : ∀ call, s.consumer = .exchange call → fs = []

theorem heap_init (next : N → Option N) : Heap (State.init next : State P N) [] [] [] where
  fifo := rfl
  batch := rfl
  stack := rfl
  log := rfl
  nodup := List.nodup_nil
  held _ _ h := by cases h
  alone _ _ _ h := by cases h
  linked _ _ _ h := by cases h
  relink _ _ _ h := by cases h
  exchange _ h := by cases h

namespace Heap

@[simp] theorem goto_self (s : State P N) (p : P) (pc : Producer N) :
    (s.goto p pc).producers p = pc := Function.update_self ..

theorem goto_of_ne {q : P} (h : q ≠ p) (pc : Producer N) :
    (s.goto p pc).producers q = s.producers q := Function.update_of_ne h ..

/-- A thread goes on, with no other node than one that is in none of the lists. -/
theorem goto (h : Heap s fs bs ss) {pc : Producer N}
    (hholds : ∀ node, pc.holds = some node → node ∉ bs ++ (fs ++ ss) ∧
      ∀ q, q ≠ p → (s.producers q).holds ≠ some node)
    (hcas : ∀ node head, pc = .pushCas node head → s.next node = head) :
    Heap (s.goto p pc) fs bs ss where
  fifo := h.fifo
  batch := h.batch
  stack := h.stack
  log := h.log
  nodup := h.nodup
  held q node hq := by
    by_cases hqp : q = p
    · rw [hqp, goto_self] at hq
      exact (hholds node hq).1
    · rw [goto_of_ne hqp] at hq
      exact h.held q node hq
  alone q r node hq hr := by
    by_cases hqp : q = p
    · by_cases hrp : r = p
      · rw [hqp, hrp]
      · rw [hqp, goto_self] at hq
        rw [goto_of_ne hrp] at hr
        exact absurd hr ((hholds node hq).2 r hrp)
    · rw [goto_of_ne hqp] at hq
      by_cases hrp : r = p
      · rw [hrp, goto_self] at hr
        exact absurd hq ((hholds node hr).2 q hqp)
      · rw [goto_of_ne hrp] at hr
        exact h.alone q r node hq hr
  linked q node head hq := by
    by_cases hqp : q = p
    · rw [hqp, goto_self] at hq
      exact hcas node head hq
    · rw [goto_of_ne hqp] at hq
      exact h.linked q node head hq
  relink := h.relink
  exchange := h.exchange

/-- A thread keeps its node. -/
theorem keeps (h : Heap s fs bs ss) {node : N} (hp : (s.producers p).holds = some node) :
    node ∉ bs ++ (fs ++ ss) ∧ ∀ q, q ≠ p → (s.producers q).holds ≠ some node :=
  ⟨h.held p node hp, fun q hqp hq => hqp (h.alone q p node hq hp)⟩

/-- A thread goes on without a node. -/
theorem letGo (h : Heap s fs bs ss) {pc : Producer N} (hpc : pc.holds = none) :
    Heap (s.goto p pc) fs bs ss := by
  refine h.goto (fun node hnode => ?_) fun node head hcas => ?_
  · rw [hpc] at hnode
    cases hnode
  · rw [hcas] at hpc
    cases hpc

/-- The consumer goes on between two accesses to nodes. -/
theorem enter (h : Heap s fs bs ss) {pc : Consumer N} (hbatch : pc.batch = s.consumer.batch)
    (hrelink : ∀ call batch next, pc = .relink call batch next → s.next batch = next)
    (hexchange : ∀ call, pc = .exchange call → fs = []) : Heap (s.enter pc) fs bs ss where
  fifo := h.fifo
  batch := by
    change Linked s.next pc.batch bs
    rw [hbatch]
    exact h.batch
  stack := h.stack
  log := h.log
  nodup := h.nodup
  held := h.held
  alone := h.alone
  linked := h.linked
  relink := hrelink
  exchange := hexchange

theorem woken (h : Heap s fs bs ss) : Heap (s.enter s.consumer.woken) fs bs ss := by
  cases hc : s.consumer with
  | asleep generation => exact h.enter (by rw [hc]; rfl) nofun nofun
  | relink call batch next =>
    refine h.enter (by rw [hc]; rfl) (fun call' batch' next' heq => ?_) nofun
    exact h.relink call' batch' next' (hc.trans heq)
  | exchange call => exact h.enter (by rw [hc]; rfl) nofun fun call' _ => h.exchange call hc
  | _ => exact h.enter (by rw [hc]; rfl) nofun nofun

/-- A free node is in none of the lists. -/
theorem not_mem_of_free (h : Heap s fs bs ss) {node : N} (hfree : s.Free node) :
    node ∉ bs ++ (fs ++ ss) := by
  have hcount := hfree.1
  rw [h.log, List.count_append] at hcount
  have hzero : (bs.reverse ++ (fs ++ ss.reverse)).count node = 0 := by omega
  have hno := List.count_eq_zero.1 hzero
  simpa using hno

/-- A write to a node that is in none of the lists, and that nobody has linked. -/
theorem write (h : Heap s fs bs ss) {node : N} (hno : node ∉ bs ++ (fs ++ ss))
    (hcas : ∀ q head, s.producers q ≠ .pushCas node head) (value : Option N) :
    Heap { s with next := Function.update s.next node value } fs bs ss := by
  simp only [List.mem_append, not_or] at hno
  refine ⟨h.fifo.update hno.2.1 value, h.batch.update hno.1 value, h.stack.update hno.2.2 value,
    h.log, h.nodup, h.held, h.alone, ?_, ?_, h.exchange⟩
  · intro q node' head hq
    have hne : node' ≠ node := fun heq => hcas q head (heq ▸ hq)
    exact (Function.update_of_ne hne ..).trans (h.linked q node' head hq)
  · intro call batch next hc
    have hbatch := h.batch
    rw [show s.consumer.batch = some batch by rw [show s.consumer = _ from hc]; rfl] at hbatch
    obtain ⟨rest, rfl, -⟩ := linked_some.1 hbatch
    have hne : batch ≠ node := fun heq => hno.1 (heq ▸ List.mem_cons_self)
    exact (Function.update_of_ne hne ..).trans (h.relink call batch next hc)

theorem link (h : Heap s fs bs ss) {node : N} {head : Option N}
    (hp : s.producers p = .pushLink node head) :
    Heap ({ s with next := Function.update s.next node head }.goto p (.pushCas node head))
      fs bs ss := by
  have hholds : (s.producers p).holds = some node := by rw [hp]; rfl
  have hkeeps := h.keeps hholds
  have hwrite := h.write (h.held p node hholds) (fun q head' hq => ?_) head
  · refine hwrite.goto (p := p) (fun node' hnode' => ?_) fun node' head' heq => ?_
    · obtain rfl : node = node' := Option.some.inj hnode'
      exact hkeeps
    · obtain ⟨rfl, rfl⟩ := Producer.pushCas.inj heq
      exact Function.update_self ..
  · have hqp : q = p := h.alone q p node (by rw [hq]; rfl) hholds
    rw [hqp, hp] at hq
    cases hq

/-- The exchange succeeds where the head is the one the node is linked to, whatever happened
to that head before. -/
theorem cas (h : Heap s fs bs ss) {node : N} (hp : s.producers p = .pushCas node s.stack) :
    Heap ({ s with stack := some node, pushed := s.pushed ++ [(p, node)] }.goto p
      (.pushAdd s.pushed.length)) fs bs (node :: ss) := by
  have hholds : (s.producers p).holds = some node := by rw [hp]; rfl
  obtain ⟨hno, hothers⟩ := h.keeps hholds
  have hlater : Heap (s.goto p (.pushAdd s.pushed.length)) fs bs ss := h.letGo rfl
  simp only [List.mem_append, not_or] at hno
  have hperm : (bs ++ (fs ++ node :: ss)).Perm (node :: (bs ++ (fs ++ ss))) := by
    rw [← List.append_assoc, ← List.append_assoc]
    exact List.perm_middle
  refine ⟨h.fifo, h.batch, ?_, ?_, ?_, ?_, hlater.alone, hlater.linked, h.relink, h.exchange⟩
  · refine ⟨rfl, ?_⟩
    change Linked s.next (s.next node) ss
    rw [h.linked p node s.stack hp]
    exact h.stack
  · change (s.pushed ++ [(p, node)]).map Prod.snd = s.popped ++ _
    simp only [List.map_append, List.map_cons, List.map_nil, h.log, List.reverse_cons,
      List.append_assoc]
  · rw [hperm.nodup_iff]
    exact List.nodup_cons.2 ⟨by simp [hno], h.nodup⟩
  · intro q node' hq hmem
    rcases List.mem_cons.1 (hperm.mem_iff.1 hmem) with rfl | hmem
    · by_cases hqp : q = p
      · rw [hqp] at hq
        simp only [goto_self] at hq
        cases hq
      · simp only [goto_of_ne hqp] at hq
        exact hothers q hqp hq
    · exact hlater.held q node' hq hmem

/-- Counters, marks and the calls are not looked at. -/
theorem marks (h : Heap s fs bs ss) (pushes : ℕ) (poked : Bool) (asked : P → List N)
    (captured : ℕ) (pokers : List P) :
    Heap { s with
        pushes := pushes, poked := poked, asked := asked, captured := captured, pokers := pokers }
      fs bs ss :=
  ⟨h.fifo, h.batch, h.stack, h.log, h.nodup, h.held, h.alone, h.linked, h.relink, h.exchange⟩

/-- A step of a thread leaves the list of the consumer and the batch alone. -/
theorem producer (h : Heap s fs bs ss) (hstep : ProducerStep p s s') :
    Heap s' fs bs ss ∨ ∃ node, Heap s' fs bs (node :: ss) := by
  cases hstep with
  | @push node hp hfree =>
    refine .inl ((h.marks _ _ _ _ _).goto (fun node' hnode' => ?_) nofun)
    obtain rfl : node = node' := Option.some.inj hnode'
    exact ⟨h.not_mem_of_free hfree, fun q _ => hfree.2 q⟩
  | @load node hp =>
    refine .inl (h.goto (fun node' hnode' => ?_) nofun)
    obtain rfl : node = node' := Option.some.inj hnode'
    exact h.keeps (by rw [hp]; rfl)
  | link hp => exact .inl (h.link hp)
  | @cas node hp => exact .inr ⟨node, h.cas hp⟩
  | @casFail node head hp =>
    refine .inl (h.goto (fun node' hnode' => ?_) nofun)
    obtain rfl : node = node' := Option.some.inj hnode'
    exact h.keeps (by rw [hp]; rfl)
  | add hp => exact .inl ((h.marks _ _ _ _ _).letGo rfl)
  | futexWake hp =>
    have hgoto : Heap (s.goto p .idle) fs bs ss := h.letGo rfl
    exact .inl hgoto.woken
  | wake hp => exact .inl (h.letGo rfl)
  | store hp => exact .inl ((h.marks _ _ _ _ _).letGo rfl)
  | addWake hp => exact .inl ((h.marks _ _ _ _ _).letGo rfl)
  | futexWakeWake hp =>
    have hgoto : Heap (s.goto p .idle) fs bs ss := h.letGo rfl
    exact .inl hgoto.woken

/-- The batch is empty where the consumer is not turning one around. -/
theorem batch_nil (h : Heap s fs bs ss) (hc : s.consumer.batch = none) : bs = [] := by
  have hbatch := h.batch
  rw [hc] at hbatch
  exact linked_none.1 hbatch

/-- The consumer takes the whole stack. -/
theorem takeStack (h : Heap s fs bs ss) {call : Call} (hc : s.consumer = .exchange call) :
    fs = [] ∧ bs = [] ∧ Heap ({ s with stack := none, captured := s.pushed.length }.enter
      (.reverse call s.stack)) fs ss [] := by
  obtain rfl := h.exchange call hc
  obtain rfl := h.batch_nil (by rw [hc]; rfl)
  have hlog := h.log
  have hnodup := h.nodup
  have hheld := h.held
  simp only [List.reverse_nil, List.nil_append] at hlog hnodup hheld
  refine ⟨rfl, rfl, h.fifo, h.stack, rfl, ?_, ?_, ?_, h.alone, h.linked, nofun, nofun⟩
  · simpa using hlog
  · simpa using hnodup
  · simpa using hheld

/-- A node of the batch goes to the front of the list. -/
theorem turn (h : Heap s fs bs ss) {call : Call} {batch : N} {next : Option N}
    (hc : s.consumer = .relink call batch next) :
    ∃ rest, bs = batch :: rest ∧ Heap ({ s with
      next := Function.update s.next batch s.fifo, fifo := some batch }.enter (.reverse call next))
      (batch :: fs) rest ss := by
  have hbatch := h.batch
  rw [show s.consumer.batch = some batch by rw [hc]; rfl] at hbatch
  obtain ⟨rest, rfl, hrest⟩ := linked_some.1 hbatch
  rw [h.relink call batch next hc] at hrest
  have hno : batch ∉ rest ++ (fs ++ ss) := (List.nodup_cons.1 h.nodup).1
  simp only [List.mem_append, not_or] at hno
  have hperm : (rest ++ (batch :: fs ++ ss)).Perm (batch :: rest ++ (fs ++ ss)) :=
    List.perm_middle
  refine ⟨rest, rfl, ⟨rfl, ?_⟩, hrest.update hno.1 _, h.stack.update hno.2.2 _, ?_, ?_, ?_, h.alone,
    ?_, nofun, nofun⟩
  · change Linked _ (Function.update s.next batch s.fifo batch) fs
    rw [Function.update_self]
    exact h.fifo.update hno.2.1 _
  · have hlog := h.log
    simpa using hlog
  · exact hperm.nodup_iff.2 h.nodup
  · exact fun q node hq hmem => h.held q node hq (hperm.mem_iff.1 hmem)
  · intro q node head hq
    have hne : node ≠ batch := by
      rintro rfl
      exact h.held q node (by rw [show s.producers q = _ from hq]; rfl) List.mem_cons_self
    exact (Function.update_of_ne hne ..).trans (h.linked q node head hq)

/-- The first node of the list is the one that was pushed first. -/
theorem popFirst (h : Heap s fs bs ss) {call : Call} {node : N} (hc : s.consumer = .take call)
    (hfifo : s.fifo = some node) :
    ∃ rest, fs = node :: rest ∧ Heap ({ s with
      fifo := s.next node, popped := s.popped ++ [node] }.enter .idle) rest bs ss := by
  have hlist := h.fifo
  rw [hfifo] at hlist
  obtain ⟨rest, rfl, hrest⟩ := linked_some.1 hlist
  obtain rfl := h.batch_nil (by rw [hc]; rfl)
  have hlog := h.log
  have hnodup := List.nodup_cons.1 h.nodup
  simp only [List.reverse_nil, List.nil_append] at hlog
  refine ⟨rest, rfl, hrest, rfl, h.stack, ?_, hnodup.2, ?_, h.alone, h.linked, nofun, nofun⟩
  · simpa using hlog
  · exact fun q node' hq hmem => h.held q node' hq (List.mem_cons_of_mem _ hmem)

end Heap

/-! ## The steps of the consumer -/

/-- The accesses that are left in a call of `sp_queue_pop`, but for those to the batch. -/
def Call.phase (inCall : ℕ) : Call → ℕ
  | .pop | .waitLast => inCall
  | .waitSecond _ => 10 + inCall
  | .waitFirst => 15 + inCall

theorem Call.phase_lt (call : Call) {n m : ℕ} (h : n < m) : call.phase n < call.phase m := by
  cases call <;> simp [Call.phase, h]

def Consumer.phase : Consumer N → ℕ
  | .idle => 0
  | .check call => call.phase 4
  | .exchange call => call.phase 3
  | .reverse call _ | .relink call _ _ => call.phase 2
  | .take call => call.phase 1
  | .load => 15
  | .poke _ => 10
  | .futex _ => 9
  | .asleep _ => 8

/-- The accesses to the batch that are left. -/
def Consumer.work (bs : List N) : Consumer N → ℕ
  | .reverse _ _ => 2 * bs.length
  | .relink _ _ _ => 2 * bs.length - 1
  | _ => 0

theorem Call.phase_empty (call : Call) : (call.empty : Consumer N).phase < call.phase 1 := by
  cases call <;> simp [Call.phase, Call.empty, Consumer.phase]

/-- Less is left to do. -/
def Consumer.Less (c' : Consumer N) (bs' : List N) (c : Consumer N) (bs : List N) : Prop :=
  c'.phase < c.phase ∨ c'.phase = c.phase ∧ c'.work bs' < c.work bs

/-- A step of the consumer keeps the lists together, and in a call less is left to do. -/
theorem Heap.consumer (h : Heap s fs bs ss) (hstep : ConsumerStep s s') :
    ∃ fs' bs' ss', Heap s' fs' bs' ss' ∧
      (s.consumer ≠ .idle → s'.consumer.Less bs' s.consumer bs) := by
  have hstays : ∀ {pc : Consumer N}, pc.batch = none → s.consumer.batch = none →
      (∀ call, pc = .exchange call → fs = []) → Heap (s.enter pc) fs bs ss := by
    intro pc hpc hc hexchange
    refine h.enter (hpc.trans hc.symm) (fun call batch next heq => ?_) hexchange
    rw [heq] at hpc
    cases hpc
  have hphase : ∀ {c : Consumer N} {pc : Consumer N} {bs' : List N}, s.consumer = c →
      pc.phase < c.phase → s.consumer ≠ .idle → pc.Less bs' s.consumer bs :=
    fun hc hlt _ => .inl (hc ▸ hlt)
  cases hstep with
  | pop hc => exact ⟨fs, bs, ss, hstays rfl (by rw [hc]; rfl) nofun, fun hidle => absurd hc hidle⟩
  | wait hc => exact ⟨fs, bs, ss, hstays rfl (by rw [hc]; rfl) nofun, fun hidle => absurd hc hidle⟩
  | @checkEmpty call hc hfifo =>
    exact ⟨fs, bs, ss, hstays rfl (by rw [hc]; rfl) fun call _ => h.fifo.eq_nil_iff.2 hfifo,
      hphase hc (call.phase_lt (by decide))⟩
  | @checkFull call hc hfifo =>
    exact ⟨fs, bs, ss, hstays rfl (by rw [hc]; rfl) nofun, hphase hc (call.phase_lt (by decide))⟩
  | @exchange call hc =>
    exact ⟨_, _, _, (h.takeStack hc).2.2, hphase hc (call.phase_lt (by decide))⟩
  | @next call batch hc =>
    refine ⟨fs, bs, ss, h.enter (by rw [hc]; rfl) (fun call batch next heq => ?_) nofun,
      fun _ => ?_⟩
    · obtain ⟨-, rfl, rfl⟩ := Consumer.relink.inj heq
      rfl
    · have hbatch := h.batch
      rw [show s.consumer.batch = some batch by rw [hc]; rfl] at hbatch
      obtain ⟨rest, rfl, -⟩ := linked_some.1 hbatch
      rw [hc]
      refine .inr ⟨rfl, ?_⟩
      simp only [State.enter_consumer, Consumer.work, List.length_cons]
      omega
  | relink hc =>
    obtain ⟨rest, rfl, hturn⟩ := h.turn hc
    refine ⟨_, _, _, hturn, fun _ => ?_⟩
    rw [hc]
    refine .inr ⟨rfl, ?_⟩
    simp only [State.enter_consumer, Consumer.work, List.length_cons]
    omega
  | @reversed call hc =>
    exact ⟨fs, bs, ss, hstays rfl (by rw [hc]; rfl) nofun, hphase hc (call.phase_lt (by decide))⟩
  | @take call node hc hfifo =>
    obtain ⟨rest, -, hpop⟩ := h.popFirst hc hfifo
    exact ⟨_, _, _, hpop, hphase hc (Nat.zero_lt_of_lt (call.phase_lt Nat.zero_lt_one))⟩
  | @takeNone call hc hfifo =>
    exact ⟨fs, bs, ss, hstays (by cases call <;> rfl) (by rw [hc]; rfl) (by cases call <;> nofun),
      hphase hc call.phase_empty⟩
  | load hc =>
    exact ⟨fs, bs, ss, hstays rfl (by rw [hc]; rfl) nofun,
      hphase hc (by simp [Consumer.phase, Call.phase])⟩
  | poked hc hpoked =>
    have hidle : Heap (s.enter .idle) fs bs ss := hstays rfl (by rw [hc]; rfl) nofun
    exact ⟨fs, bs, ss, hidle.marks _ _ _ _ _, hphase hc (by simp [Consumer.phase])⟩
  | @notPoked generation hc hpoked =>
    have hfutex : Heap (s.enter (.futex generation)) fs bs ss := hstays rfl (by rw [hc]; rfl) nofun
    exact ⟨fs, bs, ss, hfutex.marks _ _ _ _ _, hphase hc (by simp [Consumer.phase])⟩
  | sleep hc hsame =>
    exact ⟨fs, bs, ss, hstays rfl (by rw [hc]; rfl) nofun, hphase hc (by simp [Consumer.phase])⟩
  | futexReturn hc =>
    refine ⟨fs, bs, ss, hstays rfl (by rcases hc with hc | hc <;> (rw [hc]; rfl)) nofun, ?_⟩
    rcases hc with hc | hc <;> exact hphase hc (by simp [Consumer.phase, Call.phase])

end Spn.Queue
