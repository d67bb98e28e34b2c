import MitScheme.Lib.Chains

/-!
# Thread queues

The queues of `thread-queue.scm`. The items are in a list of pairs in a heap. What a procedure does while
it has the mutex is one step, which fails where the code signals an error. A procedure that has to wait
records its thread, and gives the mutex up until the thread is resumed, which may happen at any time.
-/

namespace MitScheme.ThreadQueue

open Chains

/-- A queue, its pairs, and the threads that events have been signalled to. A link leads to no pair if it
is `#f`, or the end of a list. -/
structure State (ι θ : Type) where
  pairs : Cells ι
  next : Nat
  firstPair : Link
  lastPair : Link
  elementCount : Int
  maxElements : Option Int
  waitingQueuers : List θ
  waitingDequeuers : List θ
  events : List θ

variable {ι θ : Type}

def makeThreadQueue (maxSize : Option Int) : State ι θ :=
  ⟨fun _ => none, 0, none, none, 0, maxSize, [], [], []⟩

/-- `(cons item l)`, which is to be found where the next pair goes. -/
def State.cons (s : State ι θ) (item : ι) (l : Link) : State ι θ :=
  { s with pairs := Function.update s.pairs s.next (some (item, l)), next := s.next + 1 }

def State.setCar (s : State ι θ) (p : Nat) (item : ι) : Option (State ι θ) :=
  (s.pairs p).map fun cell => { s with pairs := Function.update s.pairs p (some (item, cell.2)) }

def State.setCdr (s : State ι θ) (p : Nat) (l : Link) : Option (State ι θ) :=
  (s.pairs p).map fun cell => { s with pairs := Function.update s.pairs p (some (cell.1, l)) }

def State.resumeQueuers (s : State ι θ) : State ι θ :=
  { s with events := s.events ++ s.waitingQueuers, waitingQueuers := [] }

def State.resumeDequeuers (s : State ι θ) : State ι θ :=
  { s with events := s.events ++ s.waitingDequeuers, waitingDequeuers := [] }

def State.waitForRoom (s : State ι θ) (thread : θ) : State ι θ :=
  { s with waitingQueuers := s.waitingQueuers ++ [thread] }

def State.waitForItem (s : State ι θ) (thread : θ) : State ι θ :=
  { s with waitingDequeuers := s.waitingDequeuers ++ [thread] }

/-! ## With the mutex -/

/-- The last pair, if there is one, is linked to a pair. -/
def State.linkLast (s : State ι θ) (new : Nat) : Option (State ι θ) :=
  match s.lastPair with
  | some last => s.setCdr last (some new)
  | none => some s

/-- `%queue!` -/
def State.queueItem (s : State ι θ) (item : ι) : Option (ι × State ι θ) := do
  let new := s.next
  let s ← (s.cons item none).linkLast new
  let s := { s with lastPair := some new }
  let s := { s with firstPair := if s.firstPair.isNone then some new else s.firstPair }
  let s := { s with elementCount := s.elementCount + 1 }
  some (item, s.resumeDequeuers)

def State.queueNoHang (s : State ι θ) (item : ι) : Option (Option ι × State ι θ) :=
  match s.maxElements with
  | some max =>
      if s.elementCount < max then (s.queueItem item).map fun r => (some r.1, r.2)
      else some (none, s)
  | none => (s.queueItem item).map fun r => (some r.1, r.2)

/-- `%dequeue!`. After a pair that is not the last one there is to be another pair. -/
def State.dequeueItem (s : State ι θ) : Option (ι × State ι θ) := do
  let first ← s.firstPair
  let (item, rest) ← s.pairs first
  let s ← if some first = s.lastPair then some { s with firstPair := none, lastPair := none }
    else rest.map fun second => { s with firstPair := some second }
  let s := { s with elementCount := s.elementCount - 1 }
  some (item, s.resumeQueuers)

/-- `%peek` -/
def State.peekItem (s : State ι θ) : Option (ι × State ι θ) := do
  let first ← s.firstPair
  let (item, _) ← s.pairs first
  some (item, s)

/-- `%push!` -/
def State.pushItem (s : State ι θ) (item : ι) : Option (ι × State ι θ) :=
  let new := s.next
  let s := s.cons item s.firstPair
  let s := { s with firstPair := some new }
  let s := { s with lastPair := if s.lastPair.isNone then some new else s.lastPair }
  let s := { s with elementCount := s.elementCount + 1 }
  some (item, s.resumeDequeuers)

/-- The loop `before-last`, which runs at most over all pairs. -/
def beforeLast (pairs : Cells ι) (last : Nat) : Nat → Nat → Option Nat
  | 0, _ => none
  | fuel + 1, list => do
      let (_, rest) ← pairs list
      if rest = some last then some list
      else do
        let list ← rest
        beforeLast pairs last fuel list

/-- What `thread-queue/push!` does with a full queue: the last pair becomes the first one, with another
item. -/
def State.rotate (s : State ι θ) (item : ι) : Option (ι × State ι θ) := do
  let last ← s.lastPair
  let first ← s.firstPair
  let newLast ← beforeLast s.pairs last (s.next + 1) first
  let s ← s.setCdr newLast none
  let s := { s with lastPair := some newLast }
  let s ← s.setCar last item
  let s ← s.setCdr last (some first)
  some (item, { s with firstPair := some last })

/-- `thread-queue/push!` -/
def State.push (s : State ι θ) (item : ι) : Option (ι × State ι θ) :=
  match s.maxElements with
  | some max => if s.elementCount < max then s.pushItem item else s.rotate item
  | none => s.pushItem item

/-- `thread-queue/empty!` -/
def State.empty (s : State ι θ) : State ι θ :=
  if s.elementCount = 0 then s
  else State.resumeQueuers { s with firstPair := none, lastPair := none, elementCount := 0 }

inductive Operation (ι : Type) where
  | queue (item : ι)
  | queueNoHang (item : ι)
  | dequeue
  | dequeueUntil (time : Int)
  | peek
  | peekUntil (time : Int)
  | push (item : ι)
  | empty

/-- What a procedure returns. -/
inductive Answer (ι : Type) where
  | item (item : ι)
  | false
  | unspecific

def answerItem (r : ι × State ι θ) : Option (Answer ι) × State ι θ := (some (.item r.1), r.2)

/-- The loop of `thread-queue/dequeue!` and `thread-queue/peek`, up to where it waits. -/
def State.whenNonEmpty (s : State ι θ) (thread : θ) (operation : State ι θ → Option (ι × State ι θ)) :
    Option (Option (Answer ι) × State ι θ) :=
  if s.elementCount = 0 then some (none, s.waitForItem thread) else (operation s).map answerItem

/-- The loop of `when-non-empty-before`, up to where it waits. -/
def State.whenNonEmptyBefore (s : State ι θ) (thread : θ) (now time : Int)
    (operation : State ι θ → Option (ι × State ι θ)) : Option (Option (Answer ι) × State ι θ) :=
  if s.elementCount = 0 then
    if time ≤ now then some (some .false, s) else some (none, s.waitForItem thread)
  else (operation s).map answerItem

/-- What a procedure does from when it gets the mutex until it returns, or gives the mutex up to wait. It
returns nothing if it waits. -/
def State.attempt (s : State ι θ) (thread : θ) (now : Int) :
    Operation ι → Option (Option (Answer ι) × State ι θ)
  | .queue item => do
      let (answer, s) ← s.queueNoHang item
      match answer with
      | some item => some (some (.item item), s)
      | none => some (none, s.waitForRoom thread)
  | .queueNoHang item => do
      let (answer, s) ← s.queueNoHang item
      some (some ((answer.map .item).getD .false), s)
  | .dequeue => s.whenNonEmpty thread State.dequeueItem
  | .dequeueUntil time => s.whenNonEmptyBefore thread now time State.dequeueItem
  | .peek => s.whenNonEmpty thread State.peekItem
  | .peekUntil time => s.whenNonEmptyBefore thread now time State.peekItem
  | .push item => (s.push item).map answerItem
  | .empty => some (some .unspecific, s.empty)

/-- A queue, and the procedures that threads are waiting in. -/
structure World (ι θ : Type) where
  state : State ι θ
  waiting : θ → Option (Operation ι)

/-- A thread calls a procedure, or goes on with the one it is waiting in, at a time. -/
inductive Event (ι θ : Type) where
  | call (thread : θ) (operation : Operation ι) (now : Int)
  | resume (thread : θ) (now : Int)

def Event.thread : Event ι θ → θ
  | .call thread _ _ => thread
  | .resume thread _ => thread

def Event.now : Event ι θ → Int
  | .call _ _ now => now
  | .resume _ now => now

/-- The procedure that is running then. A thread that is waiting calls nothing, and one that is not
waiting is not resumed. -/
def Event.running (waiting : θ → Option (Operation ι)) : Event ι θ → Option (Operation ι)
  | .call thread operation _ => if (waiting thread).isNone then some operation else none
  | .resume thread _ => waiting thread

variable [DecidableEq θ]

/-- The events that were signalled to a thread have been taken note of when it is resumed. -/
def Event.take (s : State ι θ) : Event ι θ → State ι θ
  | .call _ _ _ => s
  | .resume thread _ => { s with events := s.events.filter fun t => t ≠ thread }

/-- An event, with what the procedure returns if it returns. -/
def World.perform (w : World ι θ) (event : Event ι θ) : Option (Option (Answer ι) × World ι θ) :=
  match event.running w.waiting with
  | none => some (none, w)
  | some operation => do
      let (answer, s) ← (event.take w.state).attempt event.thread event.now operation
      some (answer, ⟨s, Function.update w.waiting event.thread
        (if answer.isNone then some operation else none)⟩)

/-- Some events, with what the procedures return. -/
def World.performAll : List (Event ι θ) → World ι θ → Option (List (Option (Answer ι)) × World ι θ)
  | [], w => some ([], w)
  | event :: events, w => do
      let (answer, w) ← w.perform event
      let (answers, w) ← World.performAll events w
      some (answer :: answers, w)

/-- No thread is waiting for the queue. -/
def start (maxSize : Option Int) : World ι θ := ⟨makeThreadQueue maxSize, fun _ => none⟩

end MitScheme.ThreadQueue
