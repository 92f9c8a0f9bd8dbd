import Mathlib
import AptosCore.Channel.RoundRobin

/-!
# `PerKeyQueue` refines the round-robin model

A `PerKeyQueue` stands for the model whose sequence for a key is the queue of its entry, empty for
a key without one, and whose order is `round_robin_queue` (`toRoundRobin`). From a queue of style
`style` and capacity `n`, each call is the model's operation with the same returned message, and
the style and the capacity stay (`simulates`): `push` creates the entry it pushes to,
`pop_from_key_queue` on a key without entry returns what popping an empty sequence returns, and
`remove_empty_queues` only drops entries that stand for empty sequences.

So every run from `PerKeyQueue::new` returns what the model returns (`Simulates.abs_run`), every
state it reaches stands for a well-formed model, and what the model guarantees holds of the
queue: `round_robin_queue` has no duplicates and lists exactly the keys with a non-empty queue,
and a key with pending messages is served within as many pops as there are such keys.
-/

namespace AptosCore.Channel

open Transition

namespace PerKeyQueue

variable {K T : Type}

/-- The model a queue stands for. -/
def toRoundRobin (queue : PerKeyQueue K T) : RoundRobin K T where
  queues key := (queue.perKeyQueue key).getD []
  order := queue.roundRobinQueue

@[simp]
theorem toRoundRobin_queues (queue : PerKeyQueue K T) (key : K) :
    queue.toRoundRobin.queues key = (queue.perKeyQueue key).getD [] := rfl

@[simp]
theorem toRoundRobin_order (queue : PerKeyQueue K T) :
    queue.toRoundRobin.order = queue.roundRobinQueue := rfl

/-- The style and the capacity a queue keeps. -/
def HasConfig (queueStyle : QueueStyle) (maxQueueSize : ℕ+) (queue : PerKeyQueue K T) : Prop :=
  queue.queueStyle = queueStyle ∧ queue.maxQueueSize = maxQueueSize

/-- A key's sequence is non-empty exactly when it has an entry with a non-empty queue. -/
theorem getD_ne_nil_iff {entry : Option (List T)} :
    entry.getD [] ≠ [] ↔ ∃ q, entry = some q ∧ q ≠ [] := by
  cases entry with
  | none => simp
  | some q => simp

theorem toRoundRobin_new (queueStyle : QueueStyle) (maxQueueSize : ℕ+) :
    (new queueStyle maxQueueSize : PerKeyQueue K T).toRoundRobin = RoundRobin.empty := rfl

/-- Dropping the entries with empty queues leaves the sequence of every key. -/
theorem getD_filter_not_isEmpty (entry : Option (List T)) :
    (entry.filter fun q ↦ !q.isEmpty).getD [] = entry.getD [] := by
  cases entry with
  | none => rfl
  | some q => cases q <;> rfl

theorem toRoundRobin_removeEmptyQueues (queue : PerKeyQueue K T) :
    queue.removeEmptyQueues.toRoundRobin = queue.toRoundRobin := by
  show RoundRobin.mk _ _ = RoundRobin.mk _ _
  congr 1
  funext key
  exact getD_filter_not_isEmpty _

theorem toRoundRobin_collectGarbage (queue : PerKeyQueue K T) :
    queue.collectGarbage.toRoundRobin = queue.toRoundRobin := by
  unfold collectGarbage
  dsimp only
  split
  · exact toRoundRobin_removeEmptyQueues _
  · rfl

theorem hasConfig_collectGarbage {queueStyle : QueueStyle} {maxQueueSize : ℕ+}
    {queue : PerKeyQueue K T} (hconfig : queue.HasConfig queueStyle maxQueueSize) :
    queue.collectGarbage.HasConfig queueStyle maxQueueSize := by
  unfold collectGarbage removeEmptyQueues
  dsimp only
  split <;> exact hconfig

variable [DecidableEq K]

/-! ## Each call simulates the model's operation -/

theorem getD_update (m : K → Option (List T)) (key : K) (q : List T) :
    (fun key' ↦ (Function.update m key (some q) key').getD []) =
      Function.update (fun key' ↦ (m key').getD []) key q := by
  funext key'
  by_cases hkey : key' = key
  · subst hkey
    rw [Function.update_self, Function.update_self, Option.getD_some]
  · rw [Function.update_of_ne hkey, Function.update_of_ne hkey]

theorem toRoundRobin_mk_update (queueStyle : QueueStyle) (perKeyQueue : K → Option (List T))
    (key : K) (q : List T) (roundRobinQueue : List K) (maxQueueSize : ℕ+) (numPoppedSinceGc : Nat) :
    toRoundRobin ⟨queueStyle, Function.update perKeyQueue key (some q), roundRobinQueue,
        maxQueueSize, numPoppedSinceGc⟩ =
      ⟨Function.update (fun key ↦ (perKeyQueue key).getD []) key q, roundRobinQueue⟩ := by
  show RoundRobin.mk _ _ = _
  rw [getD_update]

theorem push_eq (queue : PerKeyQueue K T) (key : K) (message : T) :
    queue.push key message =
      ({ queue with
          perKeyQueue := Function.update queue.perKeyQueue key
            (some (RoundRobin.add queue.queueStyle queue.maxQueueSize
              ((queue.perKeyQueue key).getD []) message).1)
          roundRobinQueue := if ((queue.perKeyQueue key).getD []).isEmpty then
            queue.roundRobinQueue ++ [key] else queue.roundRobinQueue },
        (RoundRobin.add queue.queueStyle queue.maxQueueSize ((queue.perKeyQueue key).getD [])
          message).2) := by
  unfold push RoundRobin.add
  dsimp only
  by_cases hlt : ((queue.perKeyQueue key).getD []).length < (queue.maxQueueSize : Nat)
  · rw [if_neg (Nat.not_le.mpr hlt), if_pos hlt]
  · cases queue.queueStyle <;> (rw [if_pos (Nat.not_lt.mp hlt), if_neg hlt]; rfl)

theorem toRoundRobin_push (queue : PerKeyQueue K T) (key : K) (message : T) :
    Prod.map toRoundRobin id (queue.push key message) =
      RoundRobin.push queue.queueStyle queue.maxQueueSize queue.toRoundRobin key message := by
  rw [push_eq, Prod.map, toRoundRobin_mk_update]
  rfl

theorem popFromKeyQueue_of_none {queue : PerKeyQueue K T} {key : K}
    (hkey : queue.perKeyQueue key = none) : queue.popFromKeyQueue key = (queue, none, true) := by
  unfold popFromKeyQueue
  rw [hkey]

theorem popFromKeyQueue_of_some {queue : PerKeyQueue K T} {key : K} {q : List T}
    (hkey : queue.perKeyQueue key = some q) :
    queue.popFromKeyQueue key =
      ({ queue with
          perKeyQueue := Function.update queue.perKeyQueue key
            (some (RoundRobin.take queue.queueStyle q).2) },
        (RoundRobin.take queue.queueStyle q).1,
        (RoundRobin.take queue.queueStyle q).2.isEmpty) := by
  unfold popFromKeyQueue
  cases queue.queueStyle <;> (rw [hkey]; rfl)

theorem toRoundRobin_pop (queue : PerKeyQueue K T) :
    Prod.map toRoundRobin id queue.pop = RoundRobin.pop queue.queueStyle queue.toRoundRobin := by
  cases horder : queue.roundRobinQueue with
  | nil =>
    unfold pop RoundRobin.pop
    rw [horder, toRoundRobin_order, horder]
    rfl
  | cons key rest =>
    rw [RoundRobin.pop_cons _ (show queue.toRoundRobin.order = key :: rest from horder),
      toRoundRobin_queues]
    unfold pop
    rw [horder]
    dsimp only
    cases hkey : queue.perKeyQueue key with
    | none =>
      have htake : RoundRobin.take queue.queueStyle ([] : List T) = (none, []) := by
        cases queue.queueStyle <;> rfl
      rw [popFromKeyQueue_of_none
        (show ({ queue with roundRobinQueue := rest } : PerKeyQueue K T).perKeyQueue key = none
          from hkey), Option.getD_none, htake]
      dsimp only
      simp only [Option.isSome_none, Bool.not_true, Bool.false_eq_true, if_false,
        List.isEmpty_nil, if_true]
      rw [Function.update_eq_self_iff.mpr (by rw [toRoundRobin_queues, hkey, Option.getD_none])]
      rfl
    | some q =>
      rw [popFromKeyQueue_of_some
        (show ({ queue with roundRobinQueue := rest } : PerKeyQueue K T).perKeyQueue key = some q
          from hkey), Option.getD_some]
      dsimp only
      refine Prod.ext ?_ rfl
      show toRoundRobin (if _ then collectGarbage _ else _) = _
      rw [apply_ite toRoundRobin, toRoundRobin_collectGarbage, ite_self, apply_ite toRoundRobin,
        toRoundRobin_mk_update, toRoundRobin_mk_update]
      cases (RoundRobin.take queue.queueStyle q).2.isEmpty <;> rfl

theorem hasConfig_pop {queueStyle : QueueStyle} {maxQueueSize : ℕ+} {queue : PerKeyQueue K T}
    (hconfig : queue.HasConfig queueStyle maxQueueSize) :
    queue.pop.1.HasConfig queueStyle maxQueueSize := by
  unfold pop
  split
  · exact hconfig
  · next key rest _ =>
    cases hkey : queue.perKeyQueue key with
    | none =>
      rw [popFromKeyQueue_of_none
        (show ({ queue with roundRobinQueue := rest } : PerKeyQueue K T).perKeyQueue key = none
          from hkey)]
      exact hconfig
    | some q =>
      rw [popFromKeyQueue_of_some
        (show ({ queue with roundRobinQueue := rest } : PerKeyQueue K T).perKeyQueue key = some q
          from hkey)]
      dsimp only
      split
      · apply hasConfig_collectGarbage
        split <;> exact hconfig
      · split <;> exact hconfig

/-- From a queue of style `queueStyle` and capacity `maxQueueSize`, every call is the model's
operation with the same returned message. -/
theorem simulates (queueStyle : QueueStyle) (maxQueueSize : ℕ+) :
    Simulates (HasConfig queueStyle maxQueueSize) (step (K := K) (T := T))
      (RoundRobin.step queueStyle maxQueueSize) toRoundRobin where
  inv_step {queue} op hconfig := by
    cases op with
    | push key message =>
      show (queue.push key message).1.HasConfig queueStyle maxQueueSize
      rw [push_eq]
      exact hconfig
    | pop => exact hasConfig_pop hconfig
    | clear => exact hconfig
  abs_step {queue} op hconfig := by
    obtain ⟨hstyle, hsize⟩ := hconfig
    cases op with
    | push key message =>
      rw [RoundRobin.step_push, ← hstyle, ← hsize]
      exact toRoundRobin_push queue key message
    | pop =>
      rw [RoundRobin.step_pop, ← hstyle]
      exact toRoundRobin_pop queue
    | clear => rfl

/-! ## Runs from `new` -/

section Run

variable (queueStyle : QueueStyle) (maxQueueSize : ℕ+)

omit [DecidableEq K] in
theorem hasConfig_new : (new queueStyle maxQueueSize : PerKeyQueue K T).HasConfig queueStyle
    maxQueueSize := ⟨rfl, rfl⟩

/-- Every queue a run from `new` reaches stands for a well-formed model. -/
theorem wellFormed_run (ops : List (Op K T)) :
    (run step (new queueStyle maxQueueSize) ops).1.toRoundRobin.WellFormed maxQueueSize := by
  have hrun := congrArg Prod.fst
    ((simulates queueStyle maxQueueSize).abs_run (hasConfig_new queueStyle maxQueueSize) ops)
  rw [Prod.map_fst, toRoundRobin_new] at hrun
  rw [hrun]
  exact run_invariant (fun _ op hwf ↦ hwf.step maxQueueSize.pos op)
    (RoundRobin.wellFormed_empty _) ops

/-- `PerKeyQueue` behaves as the round-robin model of bounded per-key queues. Every run from
`new` returns the model's messages and stands for the model's state; every queue it reaches has
a `round_robin_queue` without duplicates that lists exactly the keys with a non-empty queue, holds
at most `max_queue_size` messages per key, pops from the first key of `round_robin_queue` one of
its messages, and serves a key with pending messages within as many pops as there are keys with
pending messages, whatever is pushed in between. -/
theorem perKeyQueue_refines_roundRobin (ops : List (Op K T)) :
    Prod.map toRoundRobin id (run step (new queueStyle maxQueueSize) ops) =
        run (RoundRobin.step queueStyle maxQueueSize) RoundRobin.empty ops ∧
      let queue := (run step (new queueStyle maxQueueSize) ops).1
      queue.roundRobinQueue.Nodup ∧
      (∀ key, key ∈ queue.roundRobinQueue ↔ ∃ q, queue.perKeyQueue key = some q ∧ q ≠ []) ∧
      (∀ key q, queue.perKeyQueue key = some q → q.length ≤ maxQueueSize) ∧
      (∀ key, queue.roundRobinQueue.head? = some key →
        ∃ q message, queue.perKeyQueue key = some q ∧ queue.pop.2 = some message ∧ message ∈ q) ∧
      ∀ (key : K) (keys : Finset K) (ops' : List (Op K T)),
        (∃ q, queue.perKeyQueue key = some q ∧ q ≠ []) →
        (∀ key', key' ∈ keys ↔ ∃ q, queue.perKeyQueue key' = some q ∧ q ≠ []) →
        (∀ op ∈ ops', op ≠ .clear) → keys.card ≤ ops'.countP Op.isPop →
        Eventually step (fun queue op ↦ op = .pop ∧ queue.roundRobinQueue.head? = some key)
          queue ops' := by
  have hsim := simulates (K := K) (T := T) queueStyle maxQueueSize
  have hconfig := hsim.inv_run (hasConfig_new queueStyle maxQueueSize) ops
  have hwf := wellFormed_run queueStyle maxQueueSize ops
  refine ⟨hsim.abs_run (hasConfig_new queueStyle maxQueueSize) ops, ?_⟩
  intro queue
  refine ⟨hwf.nodup, fun key ↦ ?_, fun key q hq ↦ ?_, fun key hhead ↦ ?_, ?_⟩
  · rw [← getD_ne_nil_iff]
    exact hwf.mem_order key
  · have hlen := hwf.length_le key
    rwa [toRoundRobin_queues, hq, Option.getD_some] at hlen
  · have hhead' : queue.toRoundRobin.order.head? = some key := hhead
    obtain ⟨message, hpop, hmem⟩ : ∃ message, (RoundRobin.pop queueStyle queue.toRoundRobin).2 =
        some message ∧ message ∈ queue.toRoundRobin.queues key := hwf.pop_of_head hhead'
    have hsnd := congrArg Prod.snd (toRoundRobin_pop queue)
    rw [hconfig.1] at hsnd
    have hpending : (queue.perKeyQueue key).getD [] ≠ [] := List.ne_nil_of_mem hmem
    obtain ⟨q, hq, -⟩ := getD_ne_nil_iff.mp hpending
    rw [toRoundRobin_queues, hq, Option.getD_some] at hmem
    exact ⟨q, message, hq, hsnd.trans hpop, hmem⟩
  · intro key keys ops' hpending hkeys hclear hpops
    have hserves : Eventually (RoundRobin.step queueStyle maxQueueSize) (RoundRobin.Serves key)
        queue.toRoundRobin ops' := RoundRobin.eventually_serves_of_card_le maxQueueSize.pos hwf (getD_ne_nil_iff.mpr hpending)
      (fun key' ↦ (hkeys key').trans getD_ne_nil_iff.symm) hclear hpops
    exact (hsim.eventually_iff hconfig (RoundRobin.Serves key) ops').mpr hserves

/-- Two keys with one message each, FIFO with capacity one: the second key is served within two
pops. -/
theorem perKeyQueue_refines_roundRobin_two_keys :
    let queue := (run step (new .fifo 1) [.push 0 10, .push 1 11] :
      PerKeyQueue Nat Nat × List (Option Nat)).1
    (∃ q, queue.perKeyQueue 1 = some q ∧ q ≠ []) ∧
      (∀ key, key ∈ ({0, 1} : Finset Nat) ↔ ∃ q, queue.perKeyQueue key = some q ∧ q ≠ []) ∧
      (∀ op ∈ [.pop, .pop], op ≠ (.clear : Op Nat Nat)) ∧
      ({0, 1} : Finset Nat).card ≤ ([.pop, .pop] : List (Op Nat Nat)).countP Op.isPop ∧
      Eventually step (fun queue op ↦ op = .pop ∧ queue.roundRobinQueue.head? = some 1) queue
        [.pop, .pop] := by
  intro queue
  have hqueues : queue.perKeyQueue =
      Function.update (Function.update (fun _ : Nat ↦ (none : Option (List Nat))) 0 (some [10])) 1
        (some [11]) := rfl
  have hpending : ∃ q, queue.perKeyQueue 1 = some q ∧ q ≠ [] :=
    ⟨[11], by rw [hqueues]; rfl, by simp⟩
  have hkeys : ∀ key, key ∈ ({0, 1} : Finset Nat) ↔
      ∃ q, queue.perKeyQueue key = some q ∧ q ≠ [] := by
    intro key
    rw [hqueues]
    rcases Nat.lt_or_ge key 2 with hkey | hkey
    · interval_cases key <;> simp
    · simp [show key ≠ 0 by omega, show key ≠ 1 by omega]
  have hclear : ∀ op ∈ [.pop, .pop], op ≠ (.clear : Op Nat Nat) := by simp
  have hcard : ({0, 1} : Finset Nat).card ≤ ([.pop, .pop] : List (Op Nat Nat)).countP Op.isPop := by
    decide
  exact ⟨hpending, hkeys, hclear, hcard,
    (perKeyQueue_refines_roundRobin .fifo 1 _).2.2.2.2.2 1 {0, 1} [.pop, .pop] hpending hkeys hclear
      hcard⟩

end Run

end PerKeyQueue

end AptosCore.Channel
