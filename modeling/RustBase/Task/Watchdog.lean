import RustBase.Support.Machine

/-!
# Task — the watchdog of a TaskMonitor

The watchdog waits for an interval, looks for workers that have been in a task for too long, reports
them, and waits again.  The drop of the `TaskMonitor` stores `shutdown`, sets the bool under the
mutex of the condition variable, notifies, and joins the watchdog.

* A wait ends by its time, by a notification or for no reason (`WakeReason`).  The loop does not
  look at the bool: it leaves when it finds `shutdown` or was not woken by its time.
* Workers register and write their slots at any time; the scan reads one slot at a time, under the
  lock of the slots.
* The mutex is held by the watchdog in the phases `locked` and `holding`.  Nobody reads the bool, so
  what the drop does with it is one step.

**`watchdog_protocol`**: the watchdog leaves after the drop has stored `shutdown`, begins no wait
when the bool is set, and is not waiting when it is joined, if no spurious wake-up is acted on
before the store and the bool is not set while the watchdog is away from its wait.  Otherwise it is
not so: `watchdog_astray` has a run for each.
-/

namespace RustTask
open Support

/-- `HangInfo`. -/
structure HangInfo where
  workerId : ℕ
  stuckDuration : ℕ
  deriving DecidableEq

inductive WakeReason where
  | timeout
  | notification
  | spurious
  deriving DecidableEq

/-- `WaitTimeoutResult::timed_out`. -/
def WakeReason.timedOut : WakeReason → Bool
  | .timeout => true
  | .notification | .spurious => false

inductive WatchdogPhase where
  /-- there is no hang threshold -/
  | absent
  /-- before `lock.lock()` -/
  | locking
  | locked
  /-- in `wait_timeout` -/
  | waiting
  /-- on the way out of `wait_timeout`, without the lock -/
  | woken
  /-- `wait_timeout` has returned -/
  | holding
  /-- the guard is dropped, `shutdown` is about to be loaded -/
  | checking
  /-- the clock is about to be read -/
  | passed
  /-- `slots` is about to be locked -/
  | timed
  | scanning
  | reporting
  | left
  deriving DecidableEq

/-- The watchdog is away from its wait, and has not found `shutdown`. -/
def WatchdogPhase.away : WatchdogPhase → Bool
  | .locking | .locked | .passed | .timed | .scanning | .reporting => true
  | .absent | .waiting | .woken | .holding | .checking | .left => false

inductive DropPhase where
  /-- the monitor is in use -/
  | live
  | storing
  | setting
  | notifying
  | joining
  | dropped
  deriving DecidableEq

structure TaskMonitor where
  /-- nanoseconds since `reference` -/
  elapsed : ℕ
  /-- the atomic -/
  shutdown : Bool
  /-- the bool of `shutdown_notify` -/
  notified : Bool
  slots : List ℕ
  watchdog : WatchdogPhase
  /-- what `wait_timeout` returns or has returned -/
  result : WakeReason
  nowNanos : ℕ
  /-- the slot that is read next -/
  idx : ℕ
  hung : List HangInfo
  dropper : DropPhase
  /-- what `on_hang` was called with -/
  reported : List HangInfo
  deriving DecidableEq

inductive MonitorAct where
  | tick (d : ℕ)
  -- the watchdog
  | lock
  | beginWait
  | wake (r : WakeReason)
  | reacquire
  | dropGuard
  | check
  | readClock
  | lockSlots
  | scan
  | report
  -- the workers
  | registerWorker
  | taskStarted (i : ℕ)
  | taskFinished (i : ℕ)
  -- the drop of the monitor
  | drop
  | storeShutdown
  | setNotified
  | notifyOne
  | join
  deriving DecidableEq

def u64Max : ℕ := 18446744073709551615

/-- `as_nanos() as u64`. -/
def asU64 (n : ℕ) : ℕ := n % (u64Max + 1)

namespace TaskMonitor

/-- `TaskMonitorBuilder::build`; the watchdog is there when there is a threshold. -/
def build (threshold : Option ℕ) : TaskMonitor where
  elapsed := 0
  shutdown := false
  notified := false
  slots := []
  watchdog := if threshold.isSome then .locking else .absent
  result := .timeout
  nowNanos := 0
  idx := 0
  hung := []
  dropper := .live
  reported := []

/-- What the scan makes of a slot. -/
def hangInfo (threshold now i started : ℕ) : Option HangInfo :=
  if started = 0 then none
  else if threshold ≤ now - started then some ⟨i, now - started⟩ else none

def Enabled (s : TaskMonitor) : MonitorAct → Prop
  | .tick _ => True
  | .lock => s.watchdog = .locking
  | .beginWait => s.watchdog = .locked
  -- the notification is the drop's
  | .wake r => s.watchdog = .waiting ∧ r ≠ .notification
  | .reacquire => s.watchdog = .woken
  | .dropGuard => s.watchdog = .holding
  | .check => s.watchdog = .checking
  | .readClock => s.watchdog = .passed
  | .lockSlots => s.watchdog = .timed
  | .scan => s.watchdog = .scanning
  | .report => s.watchdog = .reporting
  -- not while the scan has locked the slots
  | .registerWorker => s.dropper = .live ∧ s.watchdog ≠ .scanning
  | .taskStarted i | .taskFinished i => i < s.slots.length
  | .drop => s.dropper = .live
  | .storeShutdown => s.dropper = .storing
  -- not while the watchdog has the mutex
  | .setNotified => s.dropper = .setting ∧ s.watchdog ≠ .locked ∧ s.watchdog ≠ .holding
  | .notifyOne => s.dropper = .notifying
  | .join => s.dropper = .joining ∧ (s.watchdog = .left ∨ s.watchdog = .absent)

/-- One step of `watchdog_loop`, of a worker or of the drop. -/
def next (threshold : Option ℕ) (onHang : Bool) (s : TaskMonitor) : MonitorAct → TaskMonitor
  | .tick d => { s with elapsed := s.elapsed + d }
  | .lock => { s with watchdog := .locked }
  | .beginWait => { s with watchdog := .waiting }
  | .wake r => { s with watchdog := .woken, result := r }
  | .reacquire => { s with watchdog := .holding }
  | .dropGuard => { s with watchdog := .checking }
  | .check =>
      { s with watchdog := if s.shutdown || !s.result.timedOut then .left else .passed }
  | .readClock => { s with watchdog := .timed, nowNanos := asU64 s.elapsed }
  | .lockSlots => { s with watchdog := .scanning, idx := 0, hung := [] }
  | .scan =>
      match s.slots[s.idx]? with
      | none => { s with watchdog := .reporting }
      | some started =>
          let limit := min (threshold.getD u64Max) u64Max
          { s with
            idx := s.idx + 1
            hung := s.hung ++ (hangInfo limit s.nowNanos s.idx started).toList }
  | .report =>
      match s.hung with
      | [] => { s with watchdog := .locking }
      | info :: hung =>
          { s with
            hung := hung
            reported := if onHang then s.reported ++ [info] else s.reported }
  | .registerWorker => { s with slots := s.slots ++ [0] }
  | .taskStarted i => { s with slots := s.slots.set i (max (asU64 s.elapsed) 1) }
  | .taskFinished i => { s with slots := s.slots.set i 0 }
  | .drop => { s with dropper := .storing }
  | .storeShutdown => { s with shutdown := true, dropper := .setting }
  | .setNotified => { s with notified := true, dropper := .notifying }
  | .notifyOne =>
      if s.watchdog = .waiting then
        { s with watchdog := .woken, result := .notification, dropper := .joining }
      else { s with dropper := .joining }
  | .join => { s with dropper := .dropped }

end TaskMonitor

/-- The machine; its history counts the waits that were begun with the bool set. -/
def monitorMachine (threshold : Option ℕ) (onHang : Bool) : Machine (TaskMonitor × ℕ) MonitorAct :=
  Machine.withHistory
    { Init := fun s => s = .build threshold
      Enabled := TaskMonitor.Enabled
      next := TaskMonitor.next threshold onHang }
    0
    fun s a n => if a = .beginWait ∧ s.notified = true then n + 1 else n

/-- The watchdog is there until the drop, and the drop does not wait for it to time out. -/
structure WatchdogProtocol (x : TaskMonitor × ℕ) : Prop where
  leaves : x.1.watchdog = .left → x.1.shutdown = true
  waits : x.2 = 0
  joins : x.1.dropper = .joining → x.1.watchdog ≠ .waiting

/-- No spurious wake-up is acted on before `shutdown` is stored, and the bool is not set while the
watchdog is away from its wait. -/
def Timely (x : TaskMonitor × ℕ) : MonitorAct → Prop
  | .check => x.1.result = .spurious → x.1.shutdown = true
  | .setNotified => x.1.watchdog.away = false
  | _ => True

/-! ### The invariant -/

/-- The watchdog has a result that it has not acted on. -/
def WatchdogPhase.waited : WatchdogPhase → Bool
  | .woken | .holding | .checking => true
  | _ => false

structure MonitorInv (s : TaskMonitor) : Prop where
  leaves : s.watchdog = .left → s.shutdown = true
  /-- a notification comes after the store -/
  result : s.watchdog.waited = true → s.result = .notification → s.shutdown = true
  setting : s.dropper = .setting → s.shutdown = true
  notified : s.notified = true → s.shutdown = true ∧ s.watchdog.away = false
  notifying : s.dropper = .notifying → s.notified = true
  joining : s.dropper = .joining ∨ s.dropper = .dropped → s.notified = true ∧ s.watchdog ≠ .waiting

namespace MonitorInv

variable {threshold : Option ℕ} {onHang : Bool} {s s' : TaskMonitor}

theorem build : MonitorInv (.build threshold) := by
  have hw : (TaskMonitor.build threshold).watchdog = .locking ∨
      (TaskMonitor.build threshold).watchdog = .absent := by
    cases threshold
    · exact .inr rfl
    · exact .inl rfl
  refine ⟨fun h => ?_, fun h => ?_, nofun, nofun, nofun, ?_⟩
  · rcases hw with e | e <;> rw [e] at h <;> cases h
  · rcases hw with e | e <;> rw [e] at h <;> cases h
  · rintro (h | h) <;> cases h

/-- While the watchdog is away the bool is not set. -/
theorem not_notified (hi : MonitorInv s) (h : s.watchdog.away = true) : s.notified = false := by
  cases hn : s.notified with
  | false => rfl
  | true =>
      have := (hi.notified hn).2
      rw [h] at this
      cases this

/-- The watchdog goes on in its turn: the bool is not set, and nothing else is asked of it. -/
theorem turn (hi : MonitorInv s) (h : s.watchdog.away = true) (hn : s'.notified = s.notified)
    (hd : s'.dropper = s.dropper) (hs : s'.shutdown = s.shutdown)
    (hl : s'.watchdog ≠ .left) (hw : s'.watchdog.waited = false) : MonitorInv s' := by
  have unset : s'.notified = false := hn.trans (hi.not_notified h)
  refine ⟨fun e => absurd e hl, fun e => ?_, fun e => ?_, fun e => ?_, fun e => ?_, fun e => ?_⟩
  · rw [hw] at e
    cases e
  · rw [hs]
    exact hi.setting (hd ▸ e)
  · rw [unset] at e
    cases e
  · rw [hn]
    exact hi.notifying (hd ▸ e)
  · have := (hi.joining (hd ▸ e)).1
    rw [hi.not_notified h] at this
    cases this

/-- A wait that ends other than by a notification. -/
theorem wake (hi : MonitorInv s) {r : WakeReason} (hr : r ≠ .notification) :
    MonitorInv { s with watchdog := .woken, result := r } :=
  ⟨nofun, fun _ e => absurd e hr, hi.setting, fun hn => ⟨(hi.notified hn).1, rfl⟩, hi.notifying,
    fun hj => ⟨(hi.joining hj).1, nofun⟩⟩

/-- The check lets the watchdog go on, or it leaves. -/
theorem check (hi : MonitorInv s) (h : s.watchdog = .checking)
    (hs : s.result = .spurious → s.shutdown = true) :
    MonitorInv
      { s with watchdog := if s.shutdown || !s.result.timedOut then .left else .passed } := by
  have hr := hi.result (by rw [h]; rfl)
  split
  · next hc =>
      refine ⟨fun _ => ?_, nofun, hi.setting, fun hn => ⟨(hi.notified hn).1, rfl⟩, hi.notifying,
        fun hj => ⟨(hi.joining hj).1, nofun⟩⟩
      change s.shutdown = true
      cases hw : s.result with
      | timeout =>
          rw [hw, WakeReason.timedOut, Bool.not_true, Bool.or_false] at hc
          exact hc
      | notification => exact hr hw
      | spurious => exact hs hw
  · next hc =>
      -- the bool is set after the store
      have unset : s.notified = false := by
        cases hn : s.notified with
        | false => rfl
        | true => simp [(hi.notified hn).1] at hc
      refine ⟨nofun, nofun, hi.setting, fun hn => ?_, hi.notifying, fun hj =>
        ⟨(hi.joining hj).1, nofun⟩⟩
      have hn : s.notified = true := hn
      rw [unset] at hn
      cases hn

theorem setNotified (hi : MonitorInv s) (hd : s.dropper = .setting)
    (ha : s.watchdog.away = false) :
    MonitorInv { s with notified := true, dropper := .notifying } := by
  refine ⟨hi.leaves, hi.result, nofun, fun _ => ⟨hi.setting hd, ha⟩, fun _ => rfl, ?_⟩
  rintro (h | h) <;> cases h

theorem notifyOne (hi : MonitorInv s) (hd : s.dropper = .notifying) :
    MonitorInv (s.next threshold onHang .notifyOne) := by
  have hn := hi.notifying hd
  obtain ⟨hs, ha⟩ := hi.notified hn
  simp only [TaskMonitor.next]
  split
  · exact ⟨nofun, fun _ _ => hs, nofun, fun _ => ⟨hs, rfl⟩, nofun, fun _ => ⟨hn, nofun⟩⟩
  · next hw => exact ⟨hi.leaves, hi.result, nofun, fun _ => ⟨hs, ha⟩, nofun, fun _ => ⟨hn, hw⟩⟩

theorem next (hi : MonitorInv s) {a : MonitorAct} {n : ℕ} (hc : Timely (s, n) a)
    (ha : s.Enabled a) : MonitorInv (s.next threshold onHang a) := by
  cases a with
  | tick d | registerWorker | taskStarted i | taskFinished i =>
      exact ⟨hi.leaves, hi.result, hi.setting, hi.notified, hi.notifying, hi.joining⟩
  | lock | beginWait | readClock | lockSlots =>
      have hw : s.watchdog = _ := ha
      exact hi.turn (by rw [hw]; rfl) rfl rfl rfl nofun rfl
  | scan =>
      have hw : s.watchdog = .scanning := ha
      simp only [TaskMonitor.next]
      split
      · exact hi.turn (by rw [hw]; rfl) rfl rfl rfl nofun rfl
      · exact ⟨hi.leaves, hi.result, hi.setting, hi.notified, hi.notifying, hi.joining⟩
  | report =>
      have hw : s.watchdog = .reporting := ha
      simp only [TaskMonitor.next]
      split
      · exact hi.turn (by rw [hw]; rfl) rfl rfl rfl nofun rfl
      · exact ⟨hi.leaves, hi.result, hi.setting, hi.notified, hi.notifying, hi.joining⟩
  | wake r => exact hi.wake ha.2
  | reacquire | dropGuard =>
      have hw : s.watchdog = _ := ha
      have hr := hi.result (by rw [hw]; rfl)
      exact ⟨nofun, fun _ => hr, hi.setting, fun hn => ⟨(hi.notified hn).1, rfl⟩, hi.notifying,
        fun hj => ⟨(hi.joining hj).1, nofun⟩⟩
  | check => exact hi.check ha hc
  | drop =>
      refine ⟨hi.leaves, hi.result, nofun, hi.notified, nofun, ?_⟩
      rintro (h | h) <;> cases h
  | storeShutdown =>
      refine ⟨fun _ => rfl, fun _ _ => rfl, fun _ => rfl, fun hn => ⟨rfl, (hi.notified hn).2⟩,
        nofun, ?_⟩
      rintro (h | h) <;> cases h
  | setNotified => exact hi.setNotified ha.1 hc
  | notifyOne => exact hi.notifyOne ha
  | join =>
      exact ⟨hi.leaves, hi.result, nofun, hi.notified, nofun, fun _ => hi.joining (.inl ha.1)⟩

end MonitorInv

theorem monitorInv_of_timely {threshold : Option ℕ} {onHang : Bool} {x : TaskMonitor × ℕ}
    (h : (monitorMachine threshold onHang).ReachableBy Timely x) : MonitorInv x.1 ∧ x.2 = 0 := by
  refine h.invariant (I := fun x => MonitorInv x.1 ∧ x.2 = 0) ?_ ?_
  · rintro ⟨s, n⟩ ⟨hs, rfl⟩
    obtain rfl : s = .build threshold := hs
    exact ⟨.build, rfl⟩
  · rintro ⟨s, n⟩ a - ⟨hi, hn⟩ hc ha
    refine ⟨hi.next hc ha, ?_⟩
    -- a wait is begun by a watchdog that is away, so before the bool is set
    have hlate : ¬ (a = .beginWait ∧ s.notified = true) := by
      rintro ⟨rfl, hs⟩
      have hw : s.watchdog = .locked := ha
      rw [hi.not_notified (by rw [hw]; rfl)] at hs
      cases hs
    change (if a = .beginWait ∧ s.notified = true then n + 1 else n) = 0
    rw [if_neg hlate]
    exact hn

/-- **The watchdog.**  In the runs whose steps are timely. -/
theorem watchdog_protocol {threshold : Option ℕ} {onHang : Bool} {x : TaskMonitor × ℕ}
    (h : (monitorMachine threshold onHang).ReachableBy Timely x) : WatchdogProtocol x := by
  obtain ⟨hi, hn⟩ := monitorInv_of_timely h
  exact ⟨hi.leaves, hn, fun hd => (hi.joining (.inl hd)).2⟩

/-- A step that is not timely: the watchdog leaves with `shutdown` unset, or the bool is set and the
watchdog is on its way to the next wait. -/
theorem untimely_step {threshold : Option ℕ} {onHang : Bool} {s : TaskMonitor} {n : ℕ}
    {a : MonitorAct} (hc : ¬ Timely (s, n) a) :
    (s.next threshold onHang a).watchdog = .left ∧ (s.next threshold onHang a).shutdown = false ∨
      (s.next threshold onHang a).notified = true ∧
        (s.next threshold onHang a).watchdog.away = true := by
  cases a with
  | check =>
      obtain ⟨hr, hs⟩ := Classical.not_imp.mp hc
      have hr : s.result = .spurious := hr
      refine .inl ⟨if_pos ?_, Bool.eq_false_iff.mpr hs⟩
      rw [hr, WakeReason.timedOut, Bool.not_false, Bool.or_true]
  | setNotified => exact .inr ⟨rfl, eq_true_of_ne_false hc⟩
  | _ => exact absurd trivial hc

/-! ### Runs -/

instance TaskMonitor.decidableEnabled (s : TaskMonitor) : ∀ a, Decidable (s.Enabled a)
  | .tick _ => inferInstanceAs (Decidable True)
  | .lock | .beginWait | .reacquire | .dropGuard | .check | .readClock | .lockSlots | .scan
  | .report | .drop | .storeShutdown | .notifyOne => inferInstanceAs (Decidable (_ = _))
  | .wake _ | .registerWorker => inferInstanceAs (Decidable (_ = _ ∧ _ ≠ _))
  | .taskStarted _ | .taskFinished _ => inferInstanceAs (Decidable (_ < _))
  | .setNotified => inferInstanceAs (Decidable (_ = _ ∧ _ ≠ _ ∧ _ ≠ _))
  | .join => inferInstanceAs (Decidable (_ = _ ∧ (_ = _ ∨ _ = _)))

instance (x : TaskMonitor × ℕ) : ∀ a, Decidable (Timely x a)
  | .check => inferInstanceAs (Decidable (_ = _ → _ = _))
  | .setNotified => inferInstanceAs (Decidable (_ = _))
  | .tick _ | .lock | .beginWait | .wake _ | .reacquire | .dropGuard | .readClock | .lockSlots
  | .scan | .report | .registerWorker | .taskStarted _ | .taskFinished _ | .drop | .storeShutdown
  | .notifyOne | .join => inferInstanceAs (Decidable True)

instance (threshold : Option ℕ) (onHang : Bool) (x : TaskMonitor × ℕ) (a : MonitorAct) :
    Decidable ((monitorMachine threshold onHang).Enabled x a) :=
  inferInstanceAs (Decidable (x.1.Enabled a))

/-- The watchdog looks once at a worker that hangs, and waits when the monitor is dropped. -/
def quietDrop : List MonitorAct :=
  [.lock, .beginWait, .registerWorker, .taskStarted 0, .tick 9, .wake .timeout, .reacquire,
    .dropGuard, .check, .readClock, .lockSlots, .scan, .scan, .report, .report, .lock, .beginWait,
    .drop, .storeShutdown, .setNotified, .notifyOne, .reacquire, .dropGuard, .check, .join]

theorem quietDrop_protocol :
    let x := (monitorMachine (some 5) true).runList (.build (some 5), 0) quietDrop
    WatchdogProtocol x ∧ x.1.watchdog = .left ∧ x.1.dropper = .dropped ∧
      x.1.reported = [⟨0, 8⟩] := by
  intro x
  have follows : (monitorMachine (some 5) true).Follows Timely (.build (some 5), 0) quietDrop := by
    decide
  exact ⟨watchdog_protocol (.of_follows ⟨rfl, rfl⟩ follows), by decide, by decide, by decide⟩

/-- The watchdog wakes for no reason. -/
def spuriousWake : List MonitorAct :=
  [.lock, .beginWait, .wake .spurious, .reacquire, .dropGuard, .check]

/-- The monitor is dropped before the watchdog has come to wait. -/
def lateDrop : List MonitorAct :=
  [.drop, .storeShutdown, .setNotified, .notifyOne, .lock, .beginWait]

/-- After `spuriousWake` the watchdog is gone, and nobody has dropped the monitor.  After `lateDrop`
it waits, nobody will notify it, and the drop waits for it. -/
theorem watchdog_astray :
    let M := monitorMachine (some 5) true
    let x := M.runList (.build (some 5), 0) spuriousWake
    let y := M.runList (.build (some 5), 0) lateDrop
    (M.Reachable x ∧ x.1.watchdog = .left ∧ x.1.dropper = .live ∧ ¬ WatchdogProtocol x) ∧
      M.Reachable y ∧ y.1.watchdog = .waiting ∧ y.1.dropper = .joining ∧ y.2 = 1 ∧
        ¬ WatchdogProtocol y := by
  intro M x y
  have spurious : M.Follows (fun _ _ => True) (.build (some 5), 0) spuriousWake := by decide
  have late : M.Follows (fun _ _ => True) (.build (some 5), 0) lateDrop := by decide
  refine ⟨⟨.of_follows ⟨rfl, rfl⟩ spurious, by decide, by decide, fun h => ?_⟩,
    .of_follows ⟨rfl, rfl⟩ late, by decide, by decide, by decide, fun h => ?_⟩
  · cases h.leaves (by decide)
  · cases h.waits

end RustTask
