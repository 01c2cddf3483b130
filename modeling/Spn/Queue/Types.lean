import Mathlib

/-! # The work queue

`queue/queue.h`: a stack that any number of producers push on, and a list that belongs to
the one consumer. A step is one atomic access of a thread, or one access to what belongs to
it; the steps of the threads come in any order.
-/
namespace Spn.Queue

/-- Where a thread is in `sp_queue_push` or `sp_queue_wake`. A push that has succeeded knows
its place in the order of pushes. -/
inductive Producer (N : Type)
  | idle
  | pushLoad (node : N)
  | pushLink (node : N) (head : Option N)
  | pushCas (node : N) (head : Option N)
  | pushAdd (place : ℕ)
  | pushWake (place : ℕ)
  | wakeStore
  | wakeAdd
  | wakeWake
  deriving DecidableEq

/-- The calls of `sp_queue_pop`: alone, or one of the three in `sp_queue_wait`. -/
inductive Call
  | pop
  | waitFirst
  | waitSecond (generation : ℕ)
  | waitLast
  deriving DecidableEq

/-- Where the consumer is in `sp_queue_pop` or `sp_queue_wait`. -/
inductive Consumer (N : Type)
  | idle
  | check (call : Call)
  | exchange (call : Call)
  | reverse (call : Call) (batch : Option N)
  | relink (call : Call) (batch : N) (next : Option N)
  | take (call : Call)
  | load
  | poke (generation : ℕ)
  | futex (generation : ℕ)
  | asleep (generation : ℕ)
  deriving DecidableEq

/-- `sp_queue_t`, the `next` of the nodes, where the threads are, and what has happened: the
pushes in the order of their successful exchanges, the nodes that were popped, the nodes
that each thread was asked to push, how many pushes there were at the last exchange of the
stack, and the threads that have set `poked` since it was last cleared. -/
structure State (P N : Type) where
  stack : Option N
  fifo : Option N
  next : N → Option N
  pushes : ℕ
  poked : Bool
  producers : P → Producer N
  consumer : Consumer N
  pushed : List (P × N)
  popped : List N
  asked : P → List N
  captured : ℕ
  pokers : List P

variable {P N : Type}

/-- `sp_queue_init`, with threads that do nothing yet. -/
def State.init (next : N → Option N) : State P N where
  stack := none
  fifo := none
  next := next
  pushes := 0
  poked := false
  producers _ := .idle
  consumer := .idle
  pushed := []
  popped := []
  asked _ := []
  captured := 0
  pokers := []

/-- The node of a push that has not succeeded yet. -/
def Producer.holds : Producer N → Option N
  | .pushLoad node | .pushLink node _ | .pushCas node _ => some node
  | _ => none

/-- `sp_sys_futex_wake`. -/
def Consumer.woken : Consumer N → Consumer N
  | .asleep _ => .check .waitLast
  | c => c

/-- What follows a call of `sp_queue_pop` that has found nothing. -/
def Call.empty : Call → Consumer N
  | .pop | .waitLast => .idle
  | .waitFirst => .load
  | .waitSecond generation => .poke generation

variable [DecidableEq P] [DecidableEq N]

namespace State

/-- The thread goes on. -/
@[simps] def goto (s : State P N) (p : P) (pc : Producer N) : State P N :=
  { s with producers := Function.update s.producers p pc }

/-- The consumer goes on. -/
@[simps] def enter (s : State P N) (pc : Consumer N) : State P N := { s with consumer := pc }

/-- Nobody pushes the node, and it was popped as often as it was pushed. -/
def Free (s : State P N) (node : N) : Prop :=
  s.popped.count node = (s.pushed.map Prod.snd).count node ∧
    ∀ p, (s.producers p).holds ≠ some node

end State

/-- A step of `sp_queue_push` or `sp_queue_wake`. The exchange fails where the head is another
one, and may fail without a reason. -/
inductive ProducerStep (p : P) : State P N → State P N → Prop
  | push {s : State P N} {node : N} (h : s.producers p = .idle) (hfree : s.Free node) :
      ProducerStep p s ({ s with
        asked := Function.update s.asked p (s.asked p ++ [node]) }.goto p (.pushLoad node))
  | load {s : State P N} {node : N} (h : s.producers p = .pushLoad node) :
      ProducerStep p s (s.goto p (.pushLink node s.stack))
  | link {s : State P N} {node : N} {head : Option N} (h : s.producers p = .pushLink node head) :
      ProducerStep p s ({ s with
        next := Function.update s.next node head }.goto p (.pushCas node head))
  | cas {s : State P N} {node : N} (h : s.producers p = .pushCas node s.stack) :
      ProducerStep p s ({ s with
        stack := some node, pushed := s.pushed ++ [(p, node)] }.goto p (.pushAdd s.pushed.length))
  | casFail {s : State P N} {node : N} {head : Option N} (h : s.producers p = .pushCas node head) :
      ProducerStep p s (s.goto p (.pushLoad node))
  | add {s : State P N} {place : ℕ} (h : s.producers p = .pushAdd place) :
      ProducerStep p s ({ s with pushes := s.pushes + 1 }.goto p (.pushWake place))
  | futexWake {s : State P N} {place : ℕ} (h : s.producers p = .pushWake place) :
      ProducerStep p s ((s.goto p .idle).enter s.consumer.woken)
  | wake {s : State P N} (h : s.producers p = .idle) : ProducerStep p s (s.goto p .wakeStore)
  | store {s : State P N} (h : s.producers p = .wakeStore) :
      ProducerStep p s ({ s with poked := true, pokers := p :: s.pokers }.goto p .wakeAdd)
  | addWake {s : State P N} (h : s.producers p = .wakeAdd) :
      ProducerStep p s ({ s with pushes := s.pushes + 1 }.goto p .wakeWake)
  | futexWakeWake {s : State P N} (h : s.producers p = .wakeWake) :
      ProducerStep p s ((s.goto p .idle).enter s.consumer.woken)

/-- A step of `sp_queue_pop` or `sp_queue_wait`. The futex sleeps only while the counter equals
the generation, and may return without a reason. -/
inductive ConsumerStep : State P N → State P N → Prop
  | pop {s : State P N} (h : s.consumer = .idle) : ConsumerStep s (s.enter (.check .pop))
  | wait {s : State P N} (h : s.consumer = .idle) : ConsumerStep s (s.enter (.check .waitFirst))
  | checkEmpty {s : State P N} {call : Call} (h : s.consumer = .check call)
      (hfifo : s.fifo = none) :
      ConsumerStep s (s.enter (.exchange call))
  | checkFull {s : State P N} {call : Call} (h : s.consumer = .check call)
      (hfifo : s.fifo ≠ none) :
      ConsumerStep s (s.enter (.take call))
  | exchange {s : State P N} {call : Call} (h : s.consumer = .exchange call) :
      ConsumerStep s ({ s with
        stack := none, captured := s.pushed.length }.enter (.reverse call s.stack))
  | next {s : State P N} {call : Call} {batch : N} (h : s.consumer = .reverse call (some batch)) :
      ConsumerStep s (s.enter (.relink call batch (s.next batch)))
  | relink {s : State P N} {call : Call} {batch : N} {next : Option N}
      (h : s.consumer = .relink call batch next) :
      ConsumerStep s ({ s with
        next := Function.update s.next batch s.fifo
        fifo := some batch }.enter (.reverse call next))
  | reversed {s : State P N} {call : Call} (h : s.consumer = .reverse call none) :
      ConsumerStep s (s.enter (.take call))
  | take {s : State P N} {call : Call} {node : N} (h : s.consumer = .take call)
      (hfifo : s.fifo = some node) :
      ConsumerStep s ({ s with fifo := s.next node, popped := s.popped ++ [node] }.enter .idle)
  | takeNone {s : State P N} {call : Call} (h : s.consumer = .take call) (hfifo : s.fifo = none) :
      ConsumerStep s (s.enter call.empty)
  | load {s : State P N} (h : s.consumer = .load) :
      ConsumerStep s (s.enter (.check (.waitSecond s.pushes)))
  | poked {s : State P N} {generation : ℕ} (h : s.consumer = .poke generation)
      (hpoked : s.poked = true) :
      ConsumerStep s ({ s with poked := false, pokers := [] }.enter .idle)
  | notPoked {s : State P N} {generation : ℕ} (h : s.consumer = .poke generation)
      (hpoked : s.poked = false) :
      ConsumerStep s ({ s with pokers := [] }.enter (.futex generation))
  | sleep {s : State P N} {generation : ℕ} (h : s.consumer = .futex generation)
      (hsame : s.pushes = generation) : ConsumerStep s (s.enter (.asleep generation))
  | futexReturn {s : State P N} {generation : ℕ}
      (h : s.consumer = .futex generation ∨ s.consumer = .asleep generation) :
      ConsumerStep s (s.enter (.check .waitLast))

/-- A step of any thread. -/
inductive Step (s s' : State P N) : Prop
  | producer (p : P) (h : ProducerStep p s s')
  | consumer (h : ConsumerStep s s')

/-- What can come of the queue at its start. -/
inductive Reachable : State P N → Prop
  | init (next : N → Option N) : Reachable (.init next)
  | step {s s' : State P N} (hreach : Reachable s) (h : Step s s') : Reachable s'

end Spn.Queue
