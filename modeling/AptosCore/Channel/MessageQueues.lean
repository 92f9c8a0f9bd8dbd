import Mathlib

/-!
# Per-key message queues of `aptos_channel`

`crates/channel/src/message_queues.rs`. A `PerKeyQueue` keeps a bounded queue of messages for
each key and serves the keys in turn: `round_robin_queue` lists the keys with pending messages,
`pop` takes a message of the first of them and sends the key to the back unless its queue is
empty, and `push` adds a key to the back when its queue was empty. At capacity FIFO drops the new
message and LIFO and KLAST the oldest one. Every `POPS_PER_GC` successful pops the empty queues
are removed from the map.

The `HashMap` is a function to `Option` (a key without an entry maps to `none`), a `VecDeque`
a list, and `NonZeroUsize` a positive natural number. The metric counters only count and are
left out. `Op` lists the calls `aptos_channel` makes, and `step` runs one of them.
-/

namespace AptosCore.Channel

/-- `QueueStyle`: FIFO drops the newest message when full and serves the oldest, LIFO drops the
oldest and serves the newest, KLAST drops the oldest and serves the oldest. -/
inductive QueueStyle where
  | fifo
  | lifo
  | klast
  deriving DecidableEq, Repr

def popsPerGc : Nat := 50

/-- `PerKeyQueue`, without its metric counters. -/
structure PerKeyQueue (K T : Type) where
  queueStyle : QueueStyle
  perKeyQueue : K → Option (List T)
  roundRobinQueue : List K
  maxQueueSize : ℕ+
  numPoppedSinceGc : Nat

/-- The calls made on a `PerKeyQueue`. -/
inductive Op (K T : Type) where
  | push (key : K) (message : T)
  | pop
  | clear

/-- Whether a call is a `pop`. -/
def Op.isPop {K T : Type} : Op K T → Bool
  | .pop => true
  | _ => false

namespace PerKeyQueue

variable {K T : Type}

def new (queueStyle : QueueStyle) (maxQueueSizePerKey : ℕ+) : PerKeyQueue K T where
  queueStyle := queueStyle
  maxQueueSize := maxQueueSizePerKey
  perKeyQueue := fun _ ↦ none
  roundRobinQueue := []
  numPoppedSinceGc := 0

variable [DecidableEq K]

/-- `pop_from_key_queue`: the message taken from the queue of `key` and whether that queue is
empty afterwards; a key without a queue gives `(None, true)`. -/
def popFromKeyQueue (queue : PerKeyQueue K T) (key : K) : PerKeyQueue K T × Option T × Bool :=
  match queue.perKeyQueue key with
  | some q =>
    let (retval, q) := match queue.queueStyle with
      | .fifo | .klast => (q.head?, q.tail)
      | .lifo => (q.getLast?, q.dropLast)
    ({ queue with perKeyQueue := Function.update queue.perKeyQueue key (some q) }, retval,
      q.isEmpty)
  | none => (queue, none, true)

/-- `push`: the dropped message, if any. The entry of `key` is created empty when missing. -/
def push (queue : PerKeyQueue K T) (key : K) (message : T) : PerKeyQueue K T × Option T :=
  let keyMessageQueue := (queue.perKeyQueue key).getD []
  let roundRobinQueue :=
    if keyMessageQueue.isEmpty then queue.roundRobinQueue ++ [key] else queue.roundRobinQueue
  let (keyMessageQueue, dropped) :=
    if keyMessageQueue.length ≥ queue.maxQueueSize then
      match queue.queueStyle with
      | .fifo => (keyMessageQueue, some message)
      | .lifo | .klast => (keyMessageQueue.tail ++ [message], keyMessageQueue.head?)
    else (keyMessageQueue ++ [message], none)
  ({ queue with
      perKeyQueue := Function.update queue.perKeyQueue key (some keyMessageQueue)
      roundRobinQueue }, dropped)

def removeEmptyQueues (queue : PerKeyQueue K T) : PerKeyQueue K T :=
  { queue with perKeyQueue := fun key ↦ (queue.perKeyQueue key).filter fun q ↦ !q.isEmpty }

/-- The bookkeeping of `pop` after a message was taken: every `POPS_PER_GC` messages the empty
queues are removed. -/
def collectGarbage (queue : PerKeyQueue K T) : PerKeyQueue K T :=
  let numPoppedSinceGc := queue.numPoppedSinceGc + 1
  if numPoppedSinceGc ≥ popsPerGc then removeEmptyQueues { queue with numPoppedSinceGc := 0 }
  else { queue with numPoppedSinceGc }

/-- `pop`: a message of the first key of `round_robin_queue`, which goes to the back unless its
queue is now empty. -/
def pop (queue : PerKeyQueue K T) : PerKeyQueue K T × Option T :=
  match queue.roundRobinQueue with
  | [] => (queue, none)
  | key :: roundRobinQueue =>
    let (queue, message, isQEmpty) := popFromKeyQueue { queue with roundRobinQueue } key
    let queue :=
      if !isQEmpty then { queue with roundRobinQueue := queue.roundRobinQueue ++ [key] } else queue
    (if message.isSome then collectGarbage queue else queue, message)

def clear (queue : PerKeyQueue K T) : PerKeyQueue K T :=
  { queue with perKeyQueue := fun _ ↦ none, roundRobinQueue := [] }

/-- One call and the message it returns. -/
def step (queue : PerKeyQueue K T) : Op K T → PerKeyQueue K T × Option T
  | .push key message => queue.push key message
  | .pop => queue.pop
  | .clear => (queue.clear, none)

end PerKeyQueue

end AptosCore.Channel
