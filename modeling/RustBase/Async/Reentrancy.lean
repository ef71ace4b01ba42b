import RustBase.Support.Reentry
import RustBase.Async.Barrier
import RustBase.Async.Channel
import RustBase.Async.Condvar
import RustBase.Async.RwLock

/-!
# Async — wakers invoked under the lock

`wake_all` and `wake_one` invoke the wakers while the caller has the lock of the primitive.  A waker
may act before it returns: when the runner rejects the post, the schedule function of a `Runtime`
drops the task, and with it the future that was woken.

`inside w` is what such a waker does: the operations of the primitive that run before `wake`
returns.  The drop of a `Lock`, `Read`, `Write` or `Recv` takes the lock when the future has an id,
which it has since it parked, and that of a `CondvarWait` takes it in `Waiting`.  So an operation
reenters its lock just when a waker it invokes drops such a future, or does anything else that takes
the lock (**`not_reenters_iff`**).  The drop of a `BarrierWait` takes no lock.

For the condvar the lock is that of its wait set; a guard dropped by a `CondvarWait` is the drop of
a guard of the mutex.
-/

namespace RustAsync
open Support

/-- No waker parked in the set does anything that takes the lock. -/
def Waiters.Quiet {α : Type*} (x : Waiters) (inside : WakerId → List α) (takes : α → Bool) : Prop :=
  ∀ (k : ℕ) (w : WakerId), x.map[k]? = some w → ∀ a ∈ inside w, takes a = false

section Wakers

variable {α : Type*} {U : LockUse α WakerId} {inside : WakerId → List α} {a : α} {x y : Waiters}

theorem not_reenters_of_forall (ht : U.takes a = true) : ¬ U.Reenters inside a ↔
    ∀ w ∈ U.under a, ∀ b ∈ inside w, U.takes b = false := by
  simp [LockUse.reenters_iff, ht]

/-- An operation that invokes no waker. -/
theorem not_reenters_of_nil (h : U.under a = []) : ¬ U.Reenters inside a := by
  simp [LockUse.reenters_iff, h]

theorem Waiters.quiet_iff {takes : α → Bool} : x.Quiet inside takes ↔
    ∀ w ∈ x.wakeAll.1, ∀ b ∈ inside w, takes b = false := by
  constructor
  · intro h w hw
    obtain ⟨k, hk⟩ := Waiters.mem_wakeAll_iff.mp hw
    exact h k w hk
  · intro h k w hk
    exact h w (Waiters.mem_wakeAll_iff.mpr ⟨k, hk⟩)

/-- An operation that wakes everybody in a set. -/
theorem not_reenters_iff_quiet (ht : U.takes a = true) (hu : U.under a = x.wakeAll.1) :
    ¬ U.Reenters inside a ↔ x.Quiet inside U.takes := by
  rw [not_reenters_of_forall ht, hu, Waiters.quiet_iff]

end Wakers

/-! ### Mutex -/

namespace MutexState

def lockUse (s : MutexState) : LockUse MutexAct WakerId where
  takes
    | .lock _ => false
    | .dropLock f => (s.locks.id f).isSome
    | .poll _ _ | .tryLock | .dropGuard _ => true
  under
    | .dropGuard _ => s.inner.dropGuard.1
    | .lock _ | .dropLock _ | .poll _ _ | .tryLock => []

/-- The wakers that the operation invokes leave the lock alone. -/
def Quiet (s : MutexState) (inside : WakerId → List MutexAct) : MutexAct → Prop
  | .dropGuard _ => s.inner.waiters.Quiet inside s.lockUse.takes
  | .lock _ | .dropLock _ | .poll _ _ | .tryLock => True

theorem not_reenters {s : MutexState} {inside : WakerId → List MutexAct} {a : MutexAct} :
    ¬ s.lockUse.Reenters inside a ↔ s.Quiet inside a := by
  cases a with
  | dropGuard g => exact not_reenters_iff_quiet rfl rfl
  | lock f | dropLock f | poll f w | tryLock => exact iff_true_intro (not_reenters_of_nil rfl)

end MutexState

/-! ### RwLock -/

namespace RwLockState

def lockUse (s : RwLockState) : LockUse RwLockAct WakerId where
  takes
    | .read _ | .write _ => false
    | .dropRead f => (s.reads.id f).isSome
    | .dropWrite f => (s.writes.id f).isSome
    | .pollRead _ _ | .pollWrite _ _ | .dropReadGuard _ | .dropWriteGuard _ => true
  under
    | .dropReadGuard _ => s.inner.dropReadGuard.1
    | .dropWriteGuard _ => s.inner.dropWriteGuard.1
    | .read _ | .write _ | .dropRead _ | .dropWrite _ | .pollRead _ _ | .pollWrite _ _ => []

/-- The wakers that the operation invokes leave the lock alone. -/
def Quiet (s : RwLockState) (inside : WakerId → List RwLockAct) : RwLockAct → Prop
  | .dropReadGuard _ => s.inner.readers - 1 = 0 → s.inner.writeWaiters.Quiet inside s.lockUse.takes
  | .dropWriteGuard _ =>
      s.inner.writeWaiters.Quiet inside s.lockUse.takes ∧
      s.inner.readWaiters.Quiet inside s.lockUse.takes
  | .read _ | .write _ | .dropRead _ | .dropWrite _ | .pollRead _ _ | .pollWrite _ _ => True

theorem not_reenters {s : RwLockState} {inside : WakerId → List RwLockAct} {a : RwLockAct} :
    ¬ s.lockUse.Reenters inside a ↔ s.Quiet inside a := by
  cases a with
  | dropReadGuard g =>
      by_cases h₀ : s.inner.readers - 1 = 0
      · rw [not_reenters_iff_quiet (x := s.inner.writeWaiters) rfl]
        · simp [Quiet, h₀]
        · simp [lockUse, RwInner.dropReadGuard, h₀]
      · refine iff_of_true (not_reenters_of_nil ?_) fun h => absurd h h₀
        simp [lockUse, RwInner.dropReadGuard, h₀]
  | dropWriteGuard g =>
      rw [not_reenters_of_forall rfl, Quiet, Waiters.quiet_iff, Waiters.quiet_iff]
      simp only [lockUse, RwInner.dropWriteGuard, List.mem_append, or_imp, forall_and]
  | read f | write f | dropRead f | dropWrite f | pollRead f w | pollWrite f w =>
      exact iff_true_intro (not_reenters_of_nil rfl)

end RwLockState

/-! ### Barrier -/

namespace BarrierState

def lockUse (s : BarrierState) : LockUse BarrierAct WakerId where
  takes
    | .wait _ | .drop _ => false
    | .poll _ _ => true
  under
    | .poll f w =>
        match s.waits f with
        | some x => (s.inner.poll s.n x w).2.2.1
        | none => []
    | .wait _ | .drop _ => []

/-- The wakers that the operation invokes leave the lock alone. -/
def Quiet (s : BarrierState) (inside : WakerId → List BarrierAct) : BarrierAct → Prop
  | .poll f _ =>
      ∀ x, s.waits f = some x → x.arrivedAt = none ∧ s.n ≤ s.inner.count + 1 →
        s.inner.waiters.Quiet inside s.lockUse.takes
  | .wait _ | .drop _ => True

theorem not_reenters {s : BarrierState} {inside : WakerId → List BarrierAct} {a : BarrierAct} :
    ¬ s.lockUse.Reenters inside a ↔ s.Quiet inside a := by
  cases a with
  | poll f w =>
      cases hx : s.waits f with
      | none =>
          refine iff_of_true (not_reenters_of_nil ?_) fun x h => ?_
          · simp only [lockUse, hx]
          · rw [hx] at h; cases h
      | some x =>
          have under : s.lockUse.under (.poll f w) = (s.inner.poll s.n x w).2.2.1 := by
            simp only [lockUse, hx]
          rw [BarrierInner.woken_poll] at under
          by_cases h : x.arrivedAt = none ∧ s.n ≤ s.inner.count + 1
          · rw [not_reenters_iff_quiet (x := s.inner.waiters) rfl (by rw [under, if_pos h])]
            simp [Quiet, hx, h]
          · refine iff_of_true (not_reenters_of_nil (by rw [under, if_neg h])) fun y hy hl => ?_
            rw [hx] at hy; cases hy
            exact absurd hl h
  | wait f | drop f => exact iff_true_intro (not_reenters_of_nil rfl)

/-- Wakers that only drop futures leave the lock alone. -/
theorem quiet_of_drop (s : BarrierState) {inside : WakerId → List BarrierAct}
    (h : ∀ w, ∀ b ∈ inside w, ∃ f, b = .drop f) (a : BarrierAct) : s.Quiet inside a := by
  cases a with
  | poll f w =>
      intro x _ _ k w' _ b hb
      obtain ⟨e, rfl⟩ := h w' b hb
      rfl
  | wait f | drop f => trivial

end BarrierState

/-! ### Channel -/

namespace ChanState

variable {α : Type*}

def lockUse (s : ChanState α) : LockUse (ChanAct α) WakerId where
  takes
    | .recv _ _ => false
    | .dropRecv f => (s.recvs.id f).isSome
    | .send _ _ | .cloneSender _ | .dropSender _ | .cloneReceiver _ | .dropReceiver _
    | .poll _ _ => true
  under
    | .send _ v => (s.inner.send v).2.1
    | .dropSender _ => s.inner.dropSender.1
    | .cloneSender _ | .cloneReceiver _ | .dropReceiver _ | .recv _ _ | .poll _ _
    | .dropRecv _ => []

/-- The wakers that the operation invokes leave the lock alone. -/
def Quiet (s : ChanState α) (inside : WakerId → List (ChanAct α)) : ChanAct α → Prop
  | .send _ _ => s.inner.receivers ≠ 0 → s.inner.recvWaiters.Quiet inside s.lockUse.takes
  | .dropSender _ => s.inner.senders - 1 = 0 → s.inner.recvWaiters.Quiet inside s.lockUse.takes
  | .cloneSender _ | .cloneReceiver _ | .dropReceiver _ | .recv _ _ | .poll _ _
  | .dropRecv _ => True

theorem not_reenters {s : ChanState α} {inside : WakerId → List (ChanAct α)} {a : ChanAct α} :
    ¬ s.lockUse.Reenters inside a ↔ s.Quiet inside a := by
  cases a with
  | send h v =>
      rcases s.inner.send_cases v with ⟨h₀, he⟩ | ⟨h₀, he⟩
      · refine iff_of_true (not_reenters_of_nil ?_) fun h => absurd h₀ h
        simp only [lockUse, he]
      · rw [not_reenters_iff_quiet (x := s.inner.recvWaiters) rfl (by simp only [lockUse, he])]
        simp [Quiet, Nat.ne_of_gt h₀]
  | dropSender h =>
      by_cases h₀ : s.inner.senders - 1 = 0
      · rw [not_reenters_iff_quiet (x := s.inner.recvWaiters) rfl]
        · simp [Quiet, h₀]
        · simp [lockUse, ChanInner.dropSender, h₀]
      · refine iff_of_true (not_reenters_of_nil ?_) fun h => absurd h h₀
        simp [lockUse, ChanInner.dropSender, h₀]
  | cloneSender h | cloneReceiver h | dropReceiver h | recv h f | poll f w | dropRecv f =>
      exact iff_true_intro (not_reenters_of_nil rfl)

end ChanState

/-! ### Condvar -/

namespace CondvarState

variable {δ κ : Type*}

/-- The lock is that of the wait set. -/
def lockUse (s : CondvarState δ κ) : LockUse (CondvarAct δ κ) WakerId where
  takes
    | .poll f _ =>
        match s.waits f with
        | some ⟨_, .init _⟩ | some ⟨_, .waiting⟩ => true
        | _ => false
    | .drop f =>
        match s.waits f with
        | some ⟨_, .waiting⟩ => true
        | _ => false
    | .notifyOne | .notifyAll => true
    | .mutex _ | .write _ _ | .wait _ _ | .resume _ | .waitUntil _ _ _ | .check _ => false
  under
    | .notifyOne => s.waiters.wakeOne.1
    | .notifyAll => s.waiters.wakeAll.1
    | .mutex _ | .write _ _ | .wait _ _ | .poll _ _ | .resume _ | .drop _ | .waitUntil _ _ _
    | .check _ => []

/-- The wakers that the operation invokes leave the lock alone. -/
def Quiet (s : CondvarState δ κ) (inside : WakerId → List (CondvarAct δ κ)) :
    CondvarAct δ κ → Prop
  | .notifyOne =>
      ∀ (k : ℕ) (w : WakerId), s.waiters.map[k]? = some w →
        (∀ j, s.waiters.map[j]? ≠ none → k ≤ j) → ∀ b ∈ inside w, s.lockUse.takes b = false
  | .notifyAll => s.waiters.Quiet inside s.lockUse.takes
  | .mutex _ | .write _ _ | .wait _ _ | .poll _ _ | .resume _ | .drop _ | .waitUntil _ _ _
  | .check _ => True

theorem not_reenters {s : CondvarState δ κ} {inside : WakerId → List (CondvarAct δ κ)}
    {a : CondvarAct δ κ} : ¬ s.lockUse.Reenters inside a ↔ s.Quiet inside a := by
  cases a with
  | notifyOne =>
      rw [not_reenters_of_forall rfl]
      constructor
      · intro h k w hk least
        refine h w ?_
        simp [lockUse, Waiters.wakeOne_of_least hk least]
      · intro h w hw
        rcases s.waiters.wakeOne_cases with ⟨-, he⟩ | ⟨k, w', hk, least, he⟩
        · simp [lockUse, he] at hw
        · obtain rfl : w = w' := by simpa [lockUse, he] using hw
          exact h k w hk least
  | notifyAll => exact not_reenters_iff_quiet rfl rfl
  | mutex a | write g d | wait f g | poll f w | resume f | drop f | waitUntil f g c | check f =>
      exact iff_true_intro (not_reenters_of_nil rfl)

end CondvarState

/-! ### All of them -/

/-- **An operation reenters its lock just when a waker it invokes takes it.**  For every state of
every primitive, whatever its wakers do before they return (`inside`), and every operation: the
thread never asks for the lock when it has it if and only if every waker parked in a set that the
operation wakes leaves the lock alone.  Operations that wake nobody always meet this, and so do all
those of a barrier when the wakers only drop futures. -/
theorem not_reenters_iff {α δ κ : Type*} :
    (∀ (s : MutexState) inside a, ¬ s.lockUse.Reenters inside a ↔ s.Quiet inside a) ∧
    (∀ (s : RwLockState) inside a, ¬ s.lockUse.Reenters inside a ↔ s.Quiet inside a) ∧
    (∀ (s : BarrierState) inside a, (¬ s.lockUse.Reenters inside a ↔ s.Quiet inside a) ∧
      ((∀ w, ∀ b ∈ inside w, ∃ f, b = .drop f) → ¬ s.lockUse.Reenters inside a)) ∧
    (∀ (s : ChanState α) inside a, ¬ s.lockUse.Reenters inside a ↔ s.Quiet inside a) ∧
    (∀ (s : CondvarState δ κ) inside a, ¬ s.lockUse.Reenters inside a ↔ s.Quiet inside a) := by
  refine ⟨fun _ _ _ => MutexState.not_reenters, fun _ _ _ => RwLockState.not_reenters,
    fun s inside a => ⟨BarrierState.not_reenters, fun h => ?_⟩,
    fun _ _ _ => ChanState.not_reenters, fun _ _ _ => CondvarState.not_reenters⟩
  exact BarrierState.not_reenters.mpr (s.quiet_of_drop h a)

/-- Future 0 has the lock, and future 1 is parked with waker 6. -/
def parkedRun : List MutexAct := [.lock 0, .poll 0 5, .lock 1, .poll 1 6]

/-- Waker 6 drops the future it wakes. -/
def droppingWaker (w : WakerId) : List MutexAct := if w = 6 then [.dropLock 1] else []

/-- The drop of the guard wakes future 1, whose drop asks for the lock that is held. -/
theorem parkedRun_reenters :
    mutexMachine.Follows (fun _ _ => True) .new (parkedRun ++ [.dropGuard 0]) ∧
    (mutexMachine.runList .new parkedRun).lockUse.Reenters droppingWaker (.dropGuard 0) := by
  decide +kernel

end RustAsync
