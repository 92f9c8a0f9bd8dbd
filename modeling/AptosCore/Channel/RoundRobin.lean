import Mathlib
import AptosCore.Channel.MessageQueues
import AptosCore.Transition.Simulation

/-!
# A round-robin queue of bounded per-key queues

What a `PerKeyQueue` is for, stated on its own. Every key has a sequence of pending messages,
and the keys with pending messages wait in a list for their turn. A push below `n` messages
appends the message; at `n`, FIFO refuses it and returns it, LIFO and KLAST drop and return the
oldest and append the new one; a key whose sequence was empty joins the back of the list. A pop
serves the first key of the list: it takes the front of its sequence (FIFO, KLAST) or the back
(LIFO), and sends the key to the back unless that emptied it.

For `0 < n` every operation keeps the model well formed (`WellFormed.step`): each sequence holds
at most `n` messages and the list holds each key with pending messages exactly once. A key with
pending messages is then served within as many pops as there are keys with pending messages,
whatever pushes come in between (`eventually_serves_of_card_le`): a pop of another key moves it
one place to the front, and a push never moves it back.
-/

namespace AptosCore.Channel

open Transition

/-- The pending messages of each key, and the keys with pending messages in the order they are
served. -/
structure RoundRobin (K T : Type) where
  queues : K → List T
  order : List K

namespace RoundRobin

variable {K T : Type}

/-- No pending messages. -/
def empty : RoundRobin K T := ⟨fun _ ↦ [], []⟩

/-- The message a pop takes from a sequence, and what is left of it. -/
def take : QueueStyle → List T → Option T × List T
  | .fifo, pending => (pending.head?, pending.tail)
  | .lifo, pending => (pending.getLast?, pending.dropLast)
  | .klast, pending => (pending.head?, pending.tail)

/-- The sequence after a push of `message` onto a sequence that may be full, and the message
dropped. -/
def add (style : QueueStyle) (n : Nat) (pending : List T) (message : T) : List T × Option T :=
  if pending.length < n then (pending ++ [message], none)
  else if style = .fifo then (pending, some message)
  else (pending.tail ++ [message], pending.head?)

theorem length_take_le (style : QueueStyle) (pending : List T) :
    (take style pending).2.length ≤ pending.length := by
  cases style with
  | fifo | klast => exact (List.length_tail).le.trans (Nat.sub_le _ _)
  | lifo => exact (List.length_dropLast).le.trans (Nat.sub_le _ _)

theorem take_fst_mem (style : QueueStyle) {pending : List T} (hpending : pending ≠ []) :
    ∃ message, (take style pending).1 = some message ∧ message ∈ pending := by
  cases style with
  | fifo | klast =>
    exact ⟨pending.head hpending, List.head?_eq_some_head hpending, List.head_mem hpending⟩
  | lifo =>
    exact ⟨pending.getLast hpending, List.getLast?_eq_some_getLast hpending,
      List.getLast_mem hpending⟩

theorem length_add_le (style : QueueStyle) {n : Nat} (hn : 0 < n) {pending : List T}
    (hlen : pending.length ≤ n) (message : T) : (add style n pending message).1.length ≤ n := by
  unfold add
  by_cases hlt : pending.length < n
  · rw [if_pos hlt, List.length_append, List.length_singleton]
    omega
  · rw [if_neg hlt]
    split
    · exact hlen
    · rw [List.length_append, List.length_tail, List.length_singleton]
      omega

theorem add_ne_nil (style : QueueStyle) {n : Nat} (hn : 0 < n) (pending : List T) (message : T) :
    (add style n pending message).1 ≠ [] := by
  unfold add
  by_cases hlt : pending.length < n
  · rw [if_pos hlt]
    exact List.append_ne_nil_of_right_ne_nil _ (List.cons_ne_nil _ _)
  · rw [if_neg hlt]
    split
    · exact List.ne_nil_of_length_pos (show 0 < pending.length by omega)
    · exact List.append_ne_nil_of_right_ne_nil _ (List.cons_ne_nil _ _)

variable [DecidableEq K] (style : QueueStyle) (n : Nat)

/-- Push `message` for `key`, returning the message dropped. -/
def push (q : RoundRobin K T) (key : K) (message : T) : RoundRobin K T × Option T :=
  (⟨Function.update q.queues key (add style n (q.queues key) message).1,
    if (q.queues key).isEmpty then q.order ++ [key] else q.order⟩,
    (add style n (q.queues key) message).2)

/-- Serve the first key of the order. -/
def pop (q : RoundRobin K T) : RoundRobin K T × Option T :=
  match q.order with
  | [] => (q, none)
  | key :: rest =>
    (⟨Function.update q.queues key (take style (q.queues key)).2,
      if (take style (q.queues key)).2.isEmpty then rest else rest ++ [key]⟩,
      (take style (q.queues key)).1)

/-- One operation and the message it returns. -/
def step (q : RoundRobin K T) : Op K T → RoundRobin K T × Option T
  | .push key message => push style n q key message
  | .pop => pop style q
  | .clear => (empty, none)

@[simp]
theorem step_push (q : RoundRobin K T) (key : K) (message : T) :
    step style n q (.push key message) = push style n q key message := rfl

@[simp]
theorem step_pop (q : RoundRobin K T) : step style n q .pop = pop style q := rfl

@[simp]
theorem step_clear (q : RoundRobin K T) : step style n q .clear = (empty, none) := rfl

theorem pop_cons {q : RoundRobin K T} {key : K} {rest : List K} (horder : q.order = key :: rest) :
    pop style q =
      (⟨Function.update q.queues key (take style (q.queues key)).2,
        if (take style (q.queues key)).2.isEmpty then rest else rest ++ [key]⟩,
        (take style (q.queues key)).1) := by
  rw [pop, horder]

theorem pop_queues_of_cons {q : RoundRobin K T} {key : K} {rest : List K}
    (horder : q.order = key :: rest) :
    (pop style q).1.queues = Function.update q.queues key (take style (q.queues key)).2 := by
  rw [pop_cons style horder]

theorem pop_order_of_cons {q : RoundRobin K T} {key : K} {rest : List K}
    (horder : q.order = key :: rest) :
    (pop style q).1.order =
      if (take style (q.queues key)).2.isEmpty then rest else rest ++ [key] := by
  rw [pop_cons style horder]

/-! ## The invariant -/

/-- Every sequence holds at most `n` messages, and the order lists each key with pending
messages exactly once. -/
structure WellFormed (q : RoundRobin K T) : Prop where
  length_le : ∀ key, (q.queues key).length ≤ n
  nodup : q.order.Nodup
  mem_order : ∀ key, key ∈ q.order ↔ q.queues key ≠ []

omit [DecidableEq K] in
theorem wellFormed_empty : (empty : RoundRobin K T).WellFormed n where
  length_le _ := Nat.zero_le n
  nodup := List.nodup_nil
  mem_order _ := by simp [empty]

section WellFormed

variable {style n} {q : RoundRobin K T}

omit [DecidableEq K] in
theorem nodup_append_singleton {order : List K} {key : K} (hnodup : order.Nodup)
    (hkey : key ∉ order) : (order ++ [key]).Nodup := by
  rw [← List.concat_eq_append]
  exact hnodup.concat hkey

theorem WellFormed.push (hwf : q.WellFormed n) (hn : 0 < n) (key : K) (message : T) :
    (push style n q key message).1.WellFormed n where
  length_le key' := by
    show (Function.update q.queues key _ key').length ≤ n
    by_cases hkey : key' = key
    · subst hkey
      rw [Function.update_self]
      exact length_add_le style hn (hwf.length_le key') message
    · rw [Function.update_of_ne hkey]
      exact hwf.length_le key'
  nodup := by
    show (if (q.queues key).isEmpty then q.order ++ [key] else q.order).Nodup
    split
    · next hempty =>
      exact nodup_append_singleton hwf.nodup
        fun hmem ↦ (hwf.mem_order key).mp hmem (List.isEmpty_iff.mp hempty)
    · exact hwf.nodup
  mem_order key' := by
    show key' ∈ (if (q.queues key).isEmpty then q.order ++ [key] else q.order) ↔
      Function.update q.queues key _ key' ≠ []
    by_cases hkey : key' = key
    · subst hkey
      rw [Function.update_self, iff_true_intro (add_ne_nil style hn _ message), iff_true]
      split
      · exact List.mem_append_right _ (List.mem_singleton_self _)
      · next hempty => exact (hwf.mem_order key').mpr fun hnil ↦ hempty (List.isEmpty_iff.mpr hnil)
    · rw [Function.update_of_ne hkey, ← hwf.mem_order]
      split
      · simp [hkey]
      · exact Iff.rfl

theorem WellFormed.pop (hwf : q.WellFormed n) : (pop style q).1.WellFormed n := by
  cases horder : q.order with
  | nil =>
    rw [RoundRobin.pop, horder]
    exact hwf
  | cons key rest =>
    have hnodup : key ∉ rest ∧ rest.Nodup := List.nodup_cons.mp (horder ▸ hwf.nodup)
    constructor
    · intro key'
      rw [pop_queues_of_cons style horder]
      by_cases hkey : key' = key
      · subst hkey
        rw [Function.update_self]
        exact (length_take_le style _).trans (hwf.length_le key')
      · rw [Function.update_of_ne hkey]
        exact hwf.length_le key'
    · rw [pop_order_of_cons style horder]
      split
      · exact hnodup.2
      · exact nodup_append_singleton hnodup.2 hnodup.1
    · intro key'
      rw [pop_queues_of_cons style horder, pop_order_of_cons style horder]
      by_cases hkey : key' = key
      · subst hkey
        rw [Function.update_self]
        split
        · next hempty =>
          exact iff_of_false hnodup.1 fun hne ↦ hne (List.isEmpty_iff.mp hempty)
        · next hempty =>
          exact iff_of_true (List.mem_append_right _ (List.mem_singleton_self _))
            fun hnil ↦ hempty (List.isEmpty_iff.mpr hnil)
      · have hmem : key' ∈ rest ↔ q.queues key' ≠ [] := by
          rw [← hwf.mem_order, horder, List.mem_cons, or_iff_right hkey]
        rw [Function.update_of_ne hkey, ← hmem]
        split
        · exact Iff.rfl
        · simp [hkey]

theorem WellFormed.step (hwf : q.WellFormed n) (hn : 0 < n) (op : Op K T) :
    (step style n q op).1.WellFormed n := by
  cases op with
  | push key message => exact hwf.push hn key message
  | pop => exact hwf.pop
  | clear => exact wellFormed_empty n

/-- A pop serves the first key of the order with one of its messages. -/
theorem WellFormed.pop_of_head (hwf : q.WellFormed n) {key : K} (hhead : q.order.head? = some key) :
    ∃ message, (RoundRobin.pop style q).2 = some message ∧ message ∈ q.queues key := by
  obtain ⟨rest, horder⟩ : ∃ rest, q.order = key :: rest := by
    cases horder : q.order with
    | nil => rw [horder] at hhead; cases hhead
    | cons key' rest =>
      rw [horder, List.head?_cons, Option.some.injEq] at hhead
      exact ⟨rest, hhead ▸ rfl⟩
  have hpending : q.queues key ≠ [] := (hwf.mem_order key).mp (horder ▸ List.mem_cons_self)
  rw [pop_cons style horder]
  exact take_fst_mem style hpending

/-- The keys with pending messages are as many as the order lists. -/
theorem WellFormed.card_eq (hwf : q.WellFormed n) {keys : Finset K}
    (hkeys : ∀ key, key ∈ keys ↔ q.queues key ≠ []) : keys.card = q.order.length := by
  have htoFinset : q.order.toFinset = keys := by
    ext key
    rw [List.mem_toFinset, hkeys, hwf.mem_order]
  rw [← htoFinset, List.toFinset_card_of_nodup hwf.nodup]

end WellFormed

/-! ## Bounded waiting -/

/-- A pop that serves `key`. -/
def Serves (key : K) (q : RoundRobin K T) (op : Op K T) : Prop :=
  op = .pop ∧ q.order.head? = some key

section Serves

variable {style n} {q : RoundRobin K T} {key : K}

theorem queues_push_ne_nil (hn : 0 < n) (hpending : q.queues key ≠ []) (key' : K) (message : T) :
    (push style n q key' message).1.queues key ≠ [] := by
  show Function.update q.queues key' _ key ≠ []
  by_cases hkey : key = key'
  · subst hkey
    rw [Function.update_self]
    exact add_ne_nil style hn _ message
  · rwa [Function.update_of_ne hkey]

theorem idxOf_push (hmem : key ∈ q.order) (key' : K) (message : T) :
    (push style n q key' message).1.order.idxOf key = q.order.idxOf key := by
  show (if (q.queues key').isEmpty then q.order ++ [key'] else q.order).idxOf key = _
  split
  · exact List.idxOf_append_of_mem hmem
  · rfl

/-- A pop that serves another key moves `key` one place to the front and leaves its messages. -/
theorem pop_of_head_ne (hwf : q.WellFormed n) (hpending : q.queues key ≠ [])
    (hhead : q.order.head? ≠ some key) :
    (pop style q).1.queues key = q.queues key ∧
      (pop style q).1.order.idxOf key + 1 = q.order.idxOf key := by
  have hmem := (hwf.mem_order key).mpr hpending
  cases horder : q.order with
  | nil => rw [horder] at hmem; cases hmem
  | cons key' rest =>
    rw [horder, List.head?_cons, ne_eq, Option.some.injEq] at hhead
    have hrest : key ∈ rest := by
      rw [horder, List.mem_cons] at hmem
      exact hmem.resolve_left fun h ↦ hhead h.symm
    rw [pop_queues_of_cons style horder, pop_order_of_cons style horder,
      List.idxOf_cons_ne _ hhead]
    refine ⟨Function.update_of_ne (Ne.symm hhead) _ _, ?_⟩
    split
    · rfl
    · rw [List.idxOf_append_of_mem hrest]

/-- Bounded waiting: with no `clear`, a key with pending messages is served before more pops
than its place in the order have been made. Induction on the run, with the place as measure. -/
theorem eventually_serves (hn : 0 < n) :
    ∀ {q : RoundRobin K T} {ops : List (Op K T)}, q.WellFormed n → q.queues key ≠ [] →
      (∀ op ∈ ops, op ≠ .clear) → q.order.idxOf key < ops.countP Op.isPop →
      Eventually (step style n) (Serves key) q ops
  | _, [], _, _, _, hpops => absurd hpops (Nat.not_lt_zero _)
  | q, op :: ops, hwf, hpending, hclear, hpops => by
    have hrest : ∀ op ∈ ops, op ≠ .clear := fun op hop ↦ hclear op (List.mem_cons_of_mem _ hop)
    rw [eventually_cons]
    cases op with
    | push key' message =>
      right
      have hmem := (hwf.mem_order key).mpr hpending
      refine eventually_serves hn (hwf.push hn key' message)
        (queues_push_ne_nil hn hpending key' message) hrest ?_
      rw [step_push, idxOf_push hmem]
      simpa [Op.isPop] using hpops
    | pop =>
      by_cases hhead : q.order.head? = some key
      · exact .inl ⟨rfl, hhead⟩
      · right
        obtain ⟨hqueues, hidx⟩ := pop_of_head_ne hwf hpending hhead
        refine eventually_serves hn hwf.pop (hqueues ▸ hpending) hrest ?_
        rw [List.countP_cons] at hpops
        simp only [Op.isPop, if_true] at hpops
        rw [step_pop]
        omega
    | clear => exact absurd rfl (hclear .clear List.mem_cons_self)

/-- A key with pending messages is served within as many pops as there are keys with pending
messages. -/
theorem eventually_serves_of_card_le (hn : 0 < n) (hwf : q.WellFormed n)
    (hpending : q.queues key ≠ []) {keys : Finset K}
    (hkeys : ∀ key, key ∈ keys ↔ q.queues key ≠ []) {ops : List (Op K T)}
    (hclear : ∀ op ∈ ops, op ≠ .clear) (hpops : keys.card ≤ ops.countP Op.isPop) :
    Eventually (step style n) (Serves key) q ops := by
  have hidx : q.order.idxOf key < q.order.length :=
    List.idxOf_lt_length_of_mem ((hwf.mem_order key).mpr hpending)
  rw [← hwf.card_eq hkeys] at hidx
  exact eventually_serves hn hwf hpending hclear (by omega)

end Serves

end RoundRobin

end AptosCore.Channel
