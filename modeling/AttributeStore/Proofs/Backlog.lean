import AttributeStore.Event.Channel
import Mathlib.Algebra.Group.Nat.Defs

/-!
# Backlogs

The backlog of a receiver is the list of the events that it has yet to be told about, those that
the channel no longer keeps included.  Each delivery takes the first events off the backlog: an
event takes itself off, and a lag takes off as many events as it says, which brings the backlog
down to the capacity of the channel.  What a receiver is told is therefore always a first part of
what was sent.

## Main definitions

* `TellsOf`: deliveries that stand for a list of events, and `toldCount`, for how many.
* `IsLeastPowerOfTwo`: how the capacity asked for is rounded.
* `Channel.HasSent`, `Channel.IsBacklog`: what a channel keeps of the events that were sent, and
  what a receiver has yet to read of them.

## Main results

* `Channel.HasSent.foldl_send`: sending events keeps the last ones.
* `Channel.IsBacklog.receive_cases`: everything that one step of a receiver can do.
* `Channel.IsBacklog.drain`, `Channel.IsBacklog.lagged_iff`: what several steps do, and when one of
  them is a lag.
-/

namespace AttributeStore

/-! ### Deliveries and the events they stand for -/

/-- Deliveries that stand for a list of events, in their order.  An event stands for itself, and a
lag for any events of the number it says, of which there is at least one. -/
inductive TellsOf : List Delivery → List Event → Prop
  | nil : TellsOf [] []
  | event (e : Event) {deliveries : List Delivery} {events : List Event}
      (h : TellsOf deliveries events) : TellsOf (.event e :: deliveries) (e :: events)
  | lagged {missed : List Event} (hmissed : missed ≠ []) {deliveries : List Delivery}
      {events : List Event} (h : TellsOf deliveries events) :
      TellsOf (.lagged missed.length :: deliveries) (missed ++ events)

/-- The number of events that a delivery stands for. -/
def Delivery.count : Delivery → Nat
  | event _ => 1
  | lagged missed => missed

/-- The number of events that deliveries stand for. -/
def toldCount : List Delivery → Nat
  | [] => 0
  | delivery :: rest => delivery.count + toldCount rest

@[simp]
theorem toldCount_nil : toldCount [] = 0 := rfl

@[simp]
theorem toldCount_cons (delivery : Delivery) (deliveries : List Delivery) :
    toldCount (delivery :: deliveries) = delivery.count + toldCount deliveries := rfl

@[simp]
theorem toldCount_append (first second : List Delivery) :
    toldCount (first ++ second) = toldCount first + toldCount second := by
  induction first with
  | nil => simp
  | cons delivery rest ih => simp [ih, Nat.add_assoc]

theorem TellsOf.length_eq {deliveries : List Delivery} {events : List Event}
    (h : TellsOf deliveries events) : events.length = toldCount deliveries := by
  induction h with
  | nil => rfl
  | event e h ih => simp [Delivery.count, ih, Nat.add_comm]
  | lagged hmissed h ih => simp [Delivery.count, ih]

theorem TellsOf.append {first second : List Delivery} {events events' : List Event}
    (h : TellsOf first events) (h' : TellsOf second events') :
    TellsOf (first ++ second) (events ++ events') := by
  induction h with
  | nil => exact h'
  | event e h ih => exact .event e ih
  | lagged hmissed h ih =>
    rw [List.cons_append, List.append_assoc]
    exact .lagged hmissed ih

/-! ### Capacities -/

/-- The least power of two that is at least a number. -/
def IsLeastPowerOfTwo (n power : Nat) : Prop :=
  (∃ k, power = 2 ^ k) ∧ n ≤ power ∧ ∀ k, n ≤ 2 ^ k → power ≤ 2 ^ k

theorem isLeastPowerOfTwo_powerOfTwoFrom (n : Nat) :
    IsLeastPowerOfTwo n (Channel.powerOfTwoFrom n) := by
  unfold Channel.powerOfTwoFrom
  split
  next hle => exact ⟨⟨0, rfl⟩, hle, fun k _ => Nat.one_le_two_pow⟩
  next hlt =>
    have hpos : n - 1 ≠ 0 := by omega
    refine ⟨⟨_, rfl⟩, ?_, fun k hk => ?_⟩
    · have hlog : n - 1 < 2 ^ ((n - 1).log2 + 1) := (Nat.log2_lt hpos).1 (Nat.lt_succ_self _)
      change n ≤ 2 ^ ((n - 1).log2 + 1)
      omega
    · have hlog : (n - 1).log2 < k := (Nat.log2_lt hpos).2 (by omega)
      exact Nat.pow_le_pow_right (by omega) hlog

namespace Channel

/-! ### What a channel keeps -/

/-- A channel that some events were sent through, the first one first: it keeps the last ones, as
many as its capacity is, which is not zero. -/
structure HasSent (c : Channel) (events : List Event) : Prop where
  capacity_pos : 0 < c.capacity
  dropped_eq : c.dropped = events.length - c.capacity
  kept_eq : c.kept = events.drop c.dropped

theorem hasSent_withCapacity (requested : Nat) : (withCapacity requested).HasSent [] where
  capacity_pos := by
    obtain ⟨-, hle, -⟩ := isLeastPowerOfTwo_powerOfTwoFrom (max requested 1)
    exact Nat.lt_of_lt_of_le Nat.zero_lt_one (Nat.le_trans (Nat.le_max_right _ _) hle)
  dropped_eq := (Nat.zero_sub _).symm
  kept_eq := rfl

variable {c : Channel} {events : List Event}

@[simp]
theorem capacity_send (e : Event) : (c.send e).capacity = c.capacity := rfl

@[simp]
theorem capacity_foldl_send (sent : List Event) : (sent.foldl send c).capacity = c.capacity := by
  induction sent generalizing c with
  | nil => rfl
  | cons e rest ih => exact ih

theorem HasSent.length_kept (h : c.HasSent events) :
    c.kept.length = min events.length c.capacity := by
  rw [h.kept_eq, List.length_drop, h.dropped_eq]
  omega

theorem HasSent.send (h : c.HasSent events) (e : Event) : (c.send e).HasSent (events ++ [e]) where
  capacity_pos := h.capacity_pos
  dropped_eq := by
    have hkept := h.length_kept
    have hdropped := h.dropped_eq
    simp only [Channel.send, List.length_append, List.length_singleton]
    omega
  kept_eq := by
    have hdropped : c.dropped ≤ events.length := by
      rw [h.dropped_eq]
      exact Nat.sub_le _ _
    simp only [Channel.send, List.length_append, List.length_singleton]
    rw [← List.drop_drop, List.drop_append_of_le_length hdropped, ← h.kept_eq]

theorem HasSent.foldl_send (h : c.HasSent events) (sent : List Event) :
    (sent.foldl Channel.send c).HasSent (events ++ sent) := by
  induction sent generalizing c events with
  | nil => rwa [List.append_nil]
  | cons e rest ih =>
    have hrest := ih (h.send e)
    rwa [List.append_assoc] at hrest

/-! ### Backlogs -/

/-- What a receiver at a position has yet to be told about: the events that were sent after those
that it is done with. -/
def IsBacklog (c : Channel) (position : Nat) (backlog : List Event) : Prop :=
  ∃ read : List Event, read.length = position ∧ c.HasSent (read ++ backlog)

variable {position : Nat} {backlog : List Event}

theorem HasSent.isBacklog_sent (h : c.HasSent events) : c.IsBacklog c.sent [] := by
  refine ⟨events, ?_, by rwa [List.append_nil]⟩
  have hkept := h.length_kept
  have hdropped := h.dropped_eq
  simp only [sent]
  omega

theorem IsBacklog.foldl_send (h : c.IsBacklog position backlog) (sent : List Event) :
    (sent.foldl Channel.send c).IsBacklog position (backlog ++ sent) := by
  obtain ⟨read, hposition, hsent⟩ := h
  refine ⟨read, hposition, ?_⟩
  rw [← List.append_assoc]
  exact hsent.foldl_send sent

/-- A receiver that is told of the first events of its backlog has the others left. -/
theorem IsBacklog.advance {told rest : List Event} (h : c.IsBacklog position (told ++ rest)) :
    c.IsBacklog (position + told.length) rest := by
  obtain ⟨read, rfl, hsent⟩ := h
  exact ⟨read ++ told, List.length_append, by rwa [List.append_assoc]⟩

/-- A receiver whose backlog is beyond the capacity is told by how much. -/
theorem IsBacklog.receive_of_lt (h : c.IsBacklog position backlog)
    (hlag : c.capacity < backlog.length) :
    c.receive position = some (.lagged (backlog.length - c.capacity),
      position + (backlog.length - c.capacity)) := by
  obtain ⟨read, rfl, hsent⟩ := h
  have hdropped := hsent.dropped_eq
  rw [List.length_append] at hdropped
  have hbehind : read.length < c.dropped := by omega
  have hmissed : c.dropped - read.length = backlog.length - c.capacity := by omega
  have hnext : c.dropped = read.length + (backlog.length - c.capacity) := by omega
  rw [receive, if_pos hbehind, hmissed, hnext]

/-- A receiver whose backlog is within the capacity gets the first event of it. -/
theorem IsBacklog.receive_of_le (h : c.IsBacklog position backlog)
    (hkept : backlog.length ≤ c.capacity) :
    c.receive position = backlog.head?.map fun e => (.event e, position + 1) := by
  obtain ⟨read, rfl, hsent⟩ := h
  have hdropped := hsent.dropped_eq
  rw [List.length_append] at hdropped
  have hnot : ¬ read.length < c.dropped := by omega
  rw [receive, if_neg hnot, hsent.kept_eq, List.getElem?_drop,
    Nat.add_sub_cancel' (Nat.le_of_not_lt hnot), List.getElem?_append_right (Nat.le_refl _),
    Nat.sub_self, List.head?_eq_getElem?]

/-- A receiver either has no backlog and gets nothing, or it gets a delivery that tells of the first
events of the backlog.  This is a lag if and only if the backlog is beyond the capacity, and the
lag says by how much.  The last equation counts the steps that a backlog needs. -/
theorem IsBacklog.receive_cases (h : c.IsBacklog position backlog) :
    (backlog = [] ∧ c.receive position = none) ∨
      ∃ delivery told rest, c.receive position = some (delivery, position + told.length) ∧
        backlog = told ++ rest ∧ TellsOf [delivery] told ∧
        (∀ missed, delivery = .lagged missed ↔
          c.capacity < backlog.length ∧ missed = backlog.length - c.capacity) ∧
        min rest.length (c.capacity + 1) + 1 = min backlog.length (c.capacity + 1) := by
  by_cases hlag : c.capacity < backlog.length
  · have htold : (backlog.take (backlog.length - c.capacity)).length =
        backlog.length - c.capacity := List.length_take_of_le (Nat.sub_le _ _)
    have hnonempty : backlog.take (backlog.length - c.capacity) ≠ [] := by
      rw [← List.length_pos_iff, htold]
      omega
    have htells := TellsOf.lagged hnonempty .nil
    rw [htold, List.append_nil] at htells
    refine .inr ⟨_, _, backlog.drop (backlog.length - c.capacity), ?_,
      (List.take_append_drop _ _).symm, htells, fun missed => ?_, ?_⟩
    · rw [h.receive_of_lt hlag, htold]
    · simp only [Delivery.lagged.injEq, hlag, true_and]
      exact eq_comm
    · rw [List.length_drop]
      omega
  · have hreceive := h.receive_of_le (Nat.le_of_not_lt hlag)
    cases backlog with
    | nil => exact .inl ⟨rfl, hreceive⟩
    | cons e rest =>
      refine .inr ⟨.event e, [e], rest, hreceive, rfl, .event e .nil, fun missed => ?_, ?_⟩
      · simp only [reduceCtorEq, hlag, false_and]
      · rw [List.length_cons] at hlag ⊢
        omega

theorem drain_of_none (hreceive : c.receive position = none) (limit : Nat) :
    c.drain limit position = ([], position) := by
  cases limit with
  | zero => rfl
  | succ limit => simp only [drain, hreceive]

theorem drain_succ_of_some {delivery : Delivery} {next : Nat}
    (hreceive : c.receive position = some (delivery, next)) (limit : Nat) :
    c.drain (limit + 1) position =
      (delivery :: (c.drain limit next).1, (c.drain limit next).2) := by
  simp only [drain, hreceive]

theorem length_drain_le (limit position : Nat) : (c.drain limit position).1.length ≤ limit := by
  induction limit generalizing position with
  | zero => exact Nat.le_refl _
  | succ limit ih =>
    cases hreceive : c.receive position with
    | none =>
      rw [drain_of_none hreceive]
      exact Nat.zero_le _
    | some result =>
      rw [drain_succ_of_some hreceive]
      exact Nat.succ_le_succ (ih _)

/-- A drain tells of the first events of a backlog.  If some are left, it took as many steps as it
could, which were fewer than the backlog needs. -/
theorem IsBacklog.drain (h : c.IsBacklog position backlog) (limit : Nat) :
    ∃ told rest, backlog = told ++ rest ∧ TellsOf (c.drain limit position).1 told ∧
      c.IsBacklog (c.drain limit position).2 rest ∧
      (rest ≠ [] → (c.drain limit position).1.length = limit ∧
        limit < min backlog.length (c.capacity + 1)) := by
  induction limit generalizing position backlog with
  | zero =>
    refine ⟨[], backlog, rfl, .nil, h, fun hrest => ⟨rfl, ?_⟩⟩
    have hpositive := List.length_pos_iff.2 hrest
    omega
  | succ limit ih =>
    rcases h.receive_cases with ⟨rfl, hnone⟩ | ⟨delivery, told, rest, hsome, rfl, htold, -, hsteps⟩
    · rw [drain_of_none hnone]
      exact ⟨[], [], rfl, .nil, h, fun hrest => absurd rfl hrest⟩
    · obtain ⟨told', rest', rfl, htold', hbacklog, hleft⟩ := ih h.advance
      rw [drain_succ_of_some hsome]
      refine ⟨told ++ told', rest', by rw [List.append_assoc], htold.append htold', hbacklog,
        fun hrest => ?_⟩
      obtain ⟨hlength, hlimit⟩ := hleft hrest
      refine ⟨congrArg (· + 1) hlength, ?_⟩
      omega

/-- A step of a drain is a lag if and only if the backlog that the steps before it have left is
beyond the capacity, and the lag says by how much. -/
theorem IsBacklog.lagged_iff (h : c.IsBacklog position backlog) {limit : Nat}
    {got more : List Delivery} {delivery : Delivery}
    (hdrain : (c.drain limit position).1 = got ++ delivery :: more) (missed : Nat) :
    delivery = .lagged missed ↔ c.capacity < backlog.length - toldCount got ∧
      missed = backlog.length - toldCount got - c.capacity := by
  induction limit generalizing position backlog got with
  | zero => simp [Channel.drain] at hdrain
  | succ limit ih =>
    rcases h.receive_cases with ⟨rfl, hnone⟩ | ⟨first, told, rest, hsome, rfl, htold, hlag, -⟩
    · simp [drain_of_none hnone] at hdrain
    · rw [drain_succ_of_some hsome] at hdrain
      cases got with
      | nil =>
        obtain ⟨rfl, -⟩ := List.cons.inj hdrain
        exact hlag missed
      | cons first' got =>
        obtain ⟨rfl, hrest⟩ := List.cons.inj hdrain
        have hcount : told.length = first.count := by simpa using htold.length_eq
        have hleft : (told ++ rest).length - toldCount (first :: got) =
            rest.length - toldCount got := by
          rw [List.length_append, toldCount_cons]
          omega
        rw [hleft]
        exact ih h.advance hrest

end Channel

end AttributeStore
