import RustBase.Async.Waiters

/-!
# Async — Barrier

`Barrier` of `sync.rs`.  A `BarrierWait` is counted by its first poll, in the generation it finds;
the one that completes the group starts the next generation, wakes everybody and is the leader.
It has no `Drop`: a future that is dropped stays counted, and its waker stays parked.
-/

namespace RustAsync

structure BarrierInner where
  count : ℕ
  generation : ℕ
  waiters : Waiters

structure BarrierWait where
  /-- the generation it joined, once it has been counted -/
  arrivedAt : Option ℕ
  id : Option ℕ
  deriving DecidableEq

structure BarrierWaitResult where
  isLeader : Bool
  deriving DecidableEq

namespace BarrierInner

/-- The future parks. -/
def park (s : BarrierInner) (x : BarrierWait) (w : WakerId) :
    Poll BarrierWaitResult × BarrierWait × List WakerId × BarrierInner :=
  let (k, y) := s.waiters.park x.id w
  (.pending, { x with id := some k }, [], { s with waiters := y })

/-- `BarrierWait::poll` at a barrier for `n`, with the future it leaves and the wakers it
invokes. -/
def poll (n : ℕ) (s : BarrierInner) (x : BarrierWait) (w : WakerId) :
    Poll BarrierWaitResult × BarrierWait × List WakerId × BarrierInner :=
  match x.arrivedAt with
  | none =>
      let s := { s with count := s.count + 1 }
      let x := { x with arrivedAt := some s.generation }
      if n ≤ s.count then
        let (woken, y) := s.waiters.wakeAll
        (.ready ⟨true⟩, x, woken, ⟨0, s.generation + 1, y⟩)
      else s.park x w
  | some joinedGen =>
      if s.generation ≠ joinedGen then
        (.ready ⟨false⟩, { x with id := none }, [], { s with waiters := s.waiters.unpark x.id })
      else s.park x w

/-- The wakers that a poll invokes: everybody's, when it completes the group. -/
theorem woken_poll (n : ℕ) (s : BarrierInner) (x : BarrierWait) (w : WakerId) :
    (s.poll n x w).2.2.1 =
      if x.arrivedAt = none ∧ n ≤ s.count + 1 then s.waiters.wakeAll.1 else [] := by
  obtain ⟨arrivedAt, id⟩ := x
  cases arrivedAt with
  | none => by_cases h : n ≤ s.count + 1 <;> simp [poll, park, h]
  | some j => by_cases h : s.generation = j <;> simp [poll, park, h]

/-- Only the poll that completes a group is told that it leads. -/
theorem trips_of_leader {n : ℕ} {s : BarrierInner} {x : BarrierWait} {w : WakerId}
    (h : (s.poll n x w).1 = .ready ⟨true⟩) : x.arrivedAt = none ∧ n ≤ s.count + 1 := by
  obtain ⟨arrivedAt, id⟩ := x
  cases arrivedAt with
  | none =>
      refine ⟨rfl, ?_⟩
      by_contra hn
      simp [poll, park, hn] at h
  | some j => by_cases hj : s.generation = j <;> simp [poll, park, hj] at h

end BarrierInner

/-- The barrier for `n`, with its live futures. -/
structure BarrierState where
  n : ℕ
  inner : BarrierInner
  waits : FutId → Option BarrierWait

inductive BarrierAct where
  | wait (f : FutId)
  | poll (f : FutId) (w : WakerId)
  | drop (f : FutId)
  deriving DecidableEq

end RustAsync
