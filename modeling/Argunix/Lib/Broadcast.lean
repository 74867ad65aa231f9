import Mathlib.Data.List.DropRight
import Mathlib.Algebra.BigOperators.Group.List.Basic

/-!
# Broadcast channels that drop the oldest

The sender of a broadcast channel never waits. Between it and the receivers is a ring of
`capacity` values, and every receiver has a cursor of its own. A receiver that falls further
behind than the ring is long is told **how many** values it has missed and goes on with the
oldest one that is still there.

A channel is modelled by its history: `sent` is every value that was ever sent, the ring is its
end, and a cursor is a position in it. What a receiver can rely on is then one fact. What it has
been told, the values and the numbers of missed ones, `covers` the stretch of the history between
the place where it subscribed and its cursor: nothing is missing from the account, nothing is in
it twice, and the order is that of the sender (`covers_recv`).
-/

set_option autoImplicit false

namespace Argunix.Lib

variable {α : Type}

/-- A channel, as the values that were sent and whether the last sender is gone. -/
structure Broadcast (α : Type) where
  sent : List α
  closed : Bool
deriving DecidableEq

namespace Broadcast

/-- What a receiver is told. -/
inductive Told (α : Type)
  | value (a : α)
  | missed (n : ℕ)
deriving DecidableEq

inductive Received (α : Type)
  | told (t : Told α)
  | closed
  /-- Nothing to receive yet: the call waits. -/
  | pending
deriving DecidableEq

def new : Broadcast α := ⟨[], false⟩

def send (c : Broadcast α) (a : α) : Broadcast α := { c with sent := c.sent ++ [a] }

/-- A receiver with its cursor at `next` asks for a value. -/
def recv (capacity : ℕ) (c : Broadcast α) (next : ℕ) : Received α × ℕ :=
  if next + capacity < c.sent.length then
    (.told (.missed (c.sent.length - capacity - next)), c.sent.length - capacity)
  else
    match c.sent[next]? with
    | some a => (.told (.value a), next + 1)
    | none => (if c.closed then .closed else .pending, next)

/-! ## Accounts -/

/-- The account covers these values: it names them or counts them, in their order. -/
def covers : List (Told α) → List α → Prop
  | [], as => as = []
  | .value a :: ts, as => ∃ rest, as = a :: rest ∧ covers ts rest
  | .missed n :: ts, as => n ≤ as.length ∧ covers ts (as.drop n)

/-- The values an account names. -/
def named : List (Told α) → List α
  | [] => []
  | .value a :: ts => a :: named ts
  | .missed _ :: ts => named ts

/-- How many values an account only counts. -/
def missedCount : List (Told α) → ℕ
  | [] => 0
  | .value _ :: ts => missedCount ts
  | .missed n :: ts => n + missedCount ts

theorem covers_append {ts ts' : List (Told α)} {as as' : List α} (h : covers ts as)
    (h' : covers ts' as') : covers (ts ++ ts') (as ++ as') := by
  induction ts generalizing as with
  | nil =>
    have has : as = [] := h
    subst has
    exact h'
  | cons t ts ih =>
    cases t with
    | value a =>
      obtain ⟨rest, rfl, hrest⟩ := h
      exact ⟨rest ++ as', rfl, ih hrest⟩
    | missed n =>
      obtain ⟨hn, hrest⟩ := h
      refine ⟨by rw [List.length_append]; omega, ?_⟩
      rw [List.drop_append_of_le_length hn]
      exact ih hrest

theorem covers_value (a : α) : covers [.value a] [a] := ⟨[], rfl, rfl⟩

theorem covers_missed (as : List α) : covers [.missed as.length] as := by
  refine ⟨le_rfl, ?_⟩
  rw [List.drop_length]
  rfl

/-- **Every value is named or counted**, and none is both. -/
theorem covers.length_eq {ts : List (Told α)} {as : List α} (h : covers ts as) :
    (named ts).length + missedCount ts = as.length := by
  induction ts generalizing as with
  | nil =>
    have has : as = [] := h
    subst has
    rfl
  | cons t ts ih =>
    cases t with
    | value a =>
      obtain ⟨rest, rfl, hrest⟩ := h
      have := ih hrest
      simp only [named, missedCount, List.length_cons]
      omega
    | missed n =>
      obtain ⟨hn, hrest⟩ := h
      have := ih hrest
      rw [List.length_drop] at this
      simp only [named, missedCount]
      omega

/-- The named values come in the sender's order. -/
theorem covers.sublist {ts : List (Told α)} {as : List α} (h : covers ts as) :
    (named ts).Sublist as := by
  induction ts generalizing as with
  | nil =>
    have has : as = [] := h
    subst has
    exact List.Sublist.refl _
  | cons t ts ih =>
    cases t with
    | value a =>
      obtain ⟨rest, rfl, hrest⟩ := h
      exact (ih hrest).cons_cons a
    | missed n => exact (ih h.2).trans (List.drop_sublist n as)

/-- An account that only names names everything. -/
theorem covers.eq_of_not_missed {ts : List (Told α)} {as : List α} (h : covers ts as)
    (hmissed : missedCount ts = 0) : named ts = as := by
  refine h.sublist.eq_of_length ?_
  have := h.length_eq
  omega

/-! ## Receivers -/

/-- What the answer adds to the account. -/
def Received.account : Received α → List (Told α)
  | .told t => [t]
  | .closed => []
  | .pending => []

/-- A receiver that subscribed at `start` and now stands at `next` has this account. -/
structure Accounts (c : Broadcast α) (start next : ℕ) (ts : List (Told α)) : Prop where
  start_le : start ≤ next
  next_le : next ≤ c.sent.length
  covers : covers ts ((c.sent.take next).drop start)

theorem Accounts.subscribe (c : Broadcast α) : c.Accounts c.sent.length c.sent.length [] where
  start_le := le_rfl
  next_le := le_rfl
  covers := by
    rw [List.take_length, List.drop_length]
    rfl

theorem Accounts.send {c : Broadcast α} {start next : ℕ} {ts : List (Told α)}
    (h : c.Accounts start next ts) (a : α) : (c.send a).Accounts start next ts where
  start_le := h.start_le
  next_le := le_trans h.next_le (by simp [Broadcast.send])
  covers := by
    show Broadcast.covers ts (((c.sent ++ [a]).take next).drop start)
    rw [List.take_append_of_le_length h.next_le]
    exact h.covers

/-- The account of a receiver does not depend on whether there still is a sender. -/
theorem Accounts.of_sent_eq {c c' : Broadcast α} {start next : ℕ} {ts : List (Told α)}
    (h : c.Accounts start next ts) (heq : c'.sent = c.sent) : c'.Accounts start next ts := by
  refine ⟨h.start_le, ?_, ?_⟩
  · rw [heq]
    exact h.next_le
  · rw [heq]
    exact h.covers

/-- The stretch up to a later cursor. -/
theorem take_drop_append {l : List α} {start next next' : ℕ} (h : start ≤ next)
    (hle : next ≤ next') (hlen : next' ≤ l.length) :
    (l.take next').drop start = (l.take next).drop start ++ (l.take next').drop next := by
  have htake : l.take next' = l.take next ++ (l.take next').drop next := by
    conv_lhs => rw [← List.take_append_drop next (l.take next')]
    rw [List.take_take, Nat.min_eq_left hle]
  conv_lhs => rw [htake]
  rw [List.drop_append_of_le_length]
  rw [List.length_take]
  omega

/-- **Receiving keeps the account.** -/
theorem Accounts.recv {c : Broadcast α} {start next : ℕ} {ts : List (Told α)}
    (h : c.Accounts start next ts) (capacity : ℕ) :
    c.Accounts start (c.recv capacity next).2 (ts ++ (c.recv capacity next).1.account) := by
  obtain ⟨hstart, hnext, hcovers⟩ := h
  unfold Broadcast.recv
  split
  · -- the ring has overtaken the cursor
    rename_i hlag
    refine ⟨by show start ≤ c.sent.length - capacity; omega, Nat.sub_le _ _, ?_⟩
    show Broadcast.covers _ ((c.sent.take (c.sent.length - capacity)).drop start)
    rw [take_drop_append hstart (by omega : next ≤ c.sent.length - capacity) (Nat.sub_le _ _)]
    refine covers_append hcovers ?_
    have hlen : ((c.sent.take (c.sent.length - capacity)).drop next).length
        = c.sent.length - capacity - next := by
      rw [List.length_drop, List.length_take, Nat.min_eq_left (Nat.sub_le _ _)]
    rw [← hlen]
    exact covers_missed _
  · split
    · rename_i a ha
      obtain ⟨hlt, rfl⟩ := List.getElem?_eq_some_iff.mp ha
      refine ⟨Nat.le_succ_of_le hstart, hlt, ?_⟩
      show Broadcast.covers _ ((c.sent.take (next + 1)).drop start)
      rw [take_drop_append hstart (Nat.le_succ next) hlt]
      refine covers_append hcovers ?_
      have hone : (c.sent.take (next + 1)).drop next = [c.sent[next]] := by
        rw [List.take_add_one, ha, List.drop_append_of_le_length (by rw [List.length_take]; omega),
          List.drop_eq_nil_of_le (by rw [List.length_take]; omega)]
        rfl
      rw [hone]
      exact covers_value _
    · rw [show (Received.account (if c.closed = true then Received.closed else Received.pending
        : Received α)) = [] by split <;> rfl, List.append_nil]
      exact ⟨hstart, hnext, hcovers⟩

/-- A receiver that is told the channel is closed has gone through all of it. -/
theorem recv_eq_closed {c : Broadcast α} {capacity next next' : ℕ}
    (h : c.recv capacity next = (.closed, next')) :
    c.closed = true ∧ next' = next ∧ c.sent.length ≤ next := by
  unfold Broadcast.recv at h
  split at h
  · simp at h
  · split at h
    · simp at h
    · rename_i hnone
      cases hc : c.closed with
      | true =>
        rw [hc] at h
        exact ⟨rfl, (Prod.mk.inj h).2.symm, List.getElem?_eq_none_iff.mp hnone⟩
      | false =>
        rw [hc] at h
        simp at h

end Broadcast

/-! ## The catch-up buffer

A bounded queue that drops its oldest value is the end of the history. -/

/-- Append, and drop the oldest value if there are now more than `capacity`. -/
def pushRing (capacity : ℕ) (buf : List α) (a : α) : List α :=
  if capacity < (buf ++ [a]).length then (buf ++ [a]).tail else buf ++ [a]

theorem pushRing_rtake {capacity : ℕ} (hpos : 0 < capacity) (l : List α) (a : α) :
    pushRing capacity (l.rtake capacity) a = (l ++ [a]).rtake capacity := by
  unfold pushRing List.rtake
  rw [List.length_append, List.length_append, List.length_drop, List.length_singleton]
  by_cases hlt : l.length < capacity
  · -- nothing has been dropped yet
    rw [if_neg (by omega), Nat.sub_eq_zero_of_le (by omega : l.length ≤ capacity),
      Nat.sub_eq_zero_of_le (by omega : l.length + 1 ≤ capacity)]
    rfl
  · rw [if_pos (by omega), show l.length + 1 - capacity = l.length - capacity + 1 by omega,
      ← List.drop_append_of_le_length (Nat.sub_le _ _), List.tail_drop]

end Argunix.Lib
