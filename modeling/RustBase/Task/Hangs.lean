import RustBase.Task.Watchdog

/-!
# Task — what the watchdog reports

The watchdog reads the clock once for each scan and then one slot after another, while the workers
start and finish tasks.  `HangHistory` writes down what it cannot see: since when each worker has
been in its task (`began`), and that of the worker it looks at, with the clock of the scan (`Look`).

* `verdict` says of a look what is to be reported: nothing of an idle worker; of one in a task, how
  long before the clock was read the task began, if that is the threshold or more.
* A task begins when its slot is written, with the time of that moment.
* A task that began in the first nanosecond is in its slot as if it had begun in the second: a zero
  would be an idle worker.
* Nanoseconds are kept in a `u64`, so this is for as long as `elapsed` fits.

**`hangs_reported`**: `on_hang` is called for the looks that are to be reported and in their order,
every scan looks once at every worker, and one that was in its task for the threshold when the clock
was read, and still is, is reported.
-/

namespace RustTask
open Support

/-- A slot was read: by a scan with the clock at `clock`, of a worker in a task since `began`. -/
structure Look where
  clock : ℕ
  worker : ℕ
  began : Option ℕ
  deriving DecidableEq

structure HangHistory where
  /-- since when each worker has been in its task; `none` is idle -/
  began : List (Option ℕ)
  /-- the time the clock was last read -/
  clock : ℕ
  seen : List Look
  deriving DecidableEq

namespace HangHistory

def init : HangHistory := ⟨[], 0, []⟩

def record (s : TaskMonitor) (a : MonitorAct) (h : HangHistory) : HangHistory :=
  match a with
  | .registerWorker => { h with began := h.began ++ [none] }
  | .taskStarted i => { h with began := h.began.set i (some s.elapsed) }
  | .taskFinished i => { h with began := h.began.set i none }
  | .readClock => { h with clock := s.elapsed }
  | .scan =>
      match h.began[s.idx]? with
      | none => h
      | some b => { h with seen := h.seen ++ [⟨h.clock, s.idx, b⟩] }
  | _ => h

end HangHistory

/-- The monitor with an `on_hang`, and what it cannot see. -/
def hangMachine (threshold : Option ℕ) : Machine (TaskMonitor × HangHistory) MonitorAct :=
  Machine.withHistory
    { Init := fun s => s = .build threshold
      Enabled := TaskMonitor.Enabled
      next := TaskMonitor.next threshold true }
    .init .record

instance (threshold : Option ℕ) (x : TaskMonitor × HangHistory) (a : MonitorAct) :
    Decidable ((hangMachine threshold).Enabled x a) :=
  inferInstanceAs (Decidable (x.1.Enabled a))

/-- `threshold_nanos`. -/
def thresholdNanos (threshold : Option ℕ) : ℕ := min (threshold.getD u64Max) u64Max

/-- What is to be reported of a look. -/
def Look.verdict (limit : ℕ) (l : Look) : Option HangInfo :=
  l.began.bind fun t =>
    let stuck := l.clock - max t 1
    if limit ≤ stuck then some ⟨l.worker, stuck⟩ else none

/-! ### The slots -/

/-- What a slot holds. -/
def stamp : Option ℕ → ℕ
  | none => 0
  | some t => max (asU64 t) 1

theorem asU64_of_le {n : ℕ} (h : n ≤ u64Max) : asU64 n = n :=
  Nat.mod_eq_of_lt (Nat.lt_succ_of_le h)

/-- The scan makes of the slot what is to be reported. -/
theorem hangInfo_stamp {limit : ℕ} {l : Look} (hc : l.clock ≤ u64Max)
    (hb : ∀ t ∈ l.began, t ≤ u64Max) :
    TaskMonitor.hangInfo limit (asU64 l.clock) l.worker (stamp l.began) = l.verdict limit := by
  obtain ⟨clock, worker, began⟩ := l
  cases began with
  | none => rfl
  | some t =>
      have busy : max t 1 ≠ 0 := by omega
      simp only [stamp, asU64_of_le (hb t rfl), asU64_of_le hc, TaskMonitor.hangInfo, Look.verdict,
        if_neg busy, Option.bind_some]

variable {threshold : Option ℕ} {s s' : TaskMonitor} {h : HangHistory}

/-- The slots are those of the tasks, and nothing is ahead of the clock. -/
structure Stamped (s : TaskMonitor) (h : HangHistory) : Prop where
  slots : s.slots = h.began.map stamp
  began : ∀ o ∈ h.began, ∀ t ∈ o, t ≤ s.elapsed
  clock : h.clock ≤ s.elapsed
  seen : ∀ l ∈ h.seen, l.clock ≤ s.elapsed ∧ ∀ t ∈ l.began, t ≤ s.elapsed

namespace Stamped

theorem set (hi : Stamped s h) {i : ℕ} {o : Option ℕ} (ho : ∀ t ∈ o, t ≤ s.elapsed) :
    Stamped { s with slots := s.slots.set i (stamp o) } { h with began := h.began.set i o } where
  slots := by
    simp only [hi.slots, List.map_set]
  began o' ho' := by
    rcases List.mem_or_eq_of_mem_set ho' with hm | rfl
    · exact hi.began o' hm
    · exact ho
  clock := hi.clock
  seen := hi.seen

theorem next (hi : Stamped s h) (a : MonitorAct) :
    Stamped (s.next threshold true a) (h.record s a) := by
  cases a with
  | tick d =>
      have later : s.elapsed ≤ s.elapsed + d := Nat.le_add_right ..
      refine ⟨hi.slots, fun o ho t ht => Nat.le_trans (hi.began o ho t ht) later,
        Nat.le_trans hi.clock later, fun l hl => ?_⟩
      obtain ⟨hc, hb⟩ := hi.seen l hl
      exact ⟨Nat.le_trans hc later, fun t ht => Nat.le_trans (hb t ht) later⟩
  | registerWorker =>
      refine ⟨?_, fun o ho => ?_, hi.clock, hi.seen⟩
      · simp [TaskMonitor.next, HangHistory.record, hi.slots, stamp]
      · rcases List.mem_append.mp ho with ho | ho
        · exact hi.began o ho
        · rw [List.mem_singleton.mp ho]
          exact fun t ht => by cases ht
  | taskStarted i => exact hi.set (o := some s.elapsed) fun t ht => by cases ht; exact Nat.le_refl _
  | taskFinished i => exact hi.set (o := none) fun t ht => by cases ht
  | readClock => exact ⟨hi.slots, hi.began, Nat.le_refl _, hi.seen⟩
  | scan =>
      have same : (s.next threshold true .scan).slots = s.slots ∧
          (s.next threshold true .scan).elapsed = s.elapsed := by
        simp only [TaskMonitor.next]
        split <;> exact ⟨rfl, rfl⟩
      have began : (h.record s .scan).began = h.began ∧ (h.record s .scan).clock = h.clock := by
        simp only [HangHistory.record]
        split <;> exact ⟨rfl, rfl⟩
      refine ⟨?_, ?_, ?_, fun l hl => ?_⟩
      · rw [same.1, began.1, hi.slots]
      · rw [began.1, same.2]
        exact hi.began
      · rw [began.2, same.2]
        exact hi.clock
      · rw [same.2]
        simp only [HangHistory.record] at hl
        split at hl
        · exact hi.seen l hl
        next b hb =>
          rcases List.mem_append.mp hl with hl | hl
          · exact hi.seen l hl
          · rw [List.mem_singleton.mp hl]
            exact ⟨hi.clock, hi.began b (List.mem_of_getElem? hb)⟩
  | report =>
      simp only [TaskMonitor.next]
      split <;> exact ⟨hi.slots, hi.began, hi.clock, hi.seen⟩
  | notifyOne =>
      simp only [TaskMonitor.next]
      split <;> exact ⟨hi.slots, hi.began, hi.clock, hi.seen⟩
  | _ => exact ⟨hi.slots, hi.began, hi.clock, hi.seen⟩

end Stamped

/-! ### The scans -/

/-- A scan has begun, and not all of it has been reported. -/
def WatchdogPhase.inScan : WatchdogPhase → Bool
  | .scanning | .reporting => true
  | .absent | .locking | .locked | .waiting | .woken | .holding | .checking | .passed | .timed
  | .left => false

/-- The looks of the scan under way: one at each of the first `n` workers.  One that is in the task
that it was in before the clock was read was in it when it was looked at. -/
structure ScanOf (n : ℕ) (h : HangHistory) (cur : List Look) : Prop where
  workers : cur.map Look.worker = List.range n
  clock : ∀ l ∈ cur, l.clock = h.clock
  still : ∀ i t : ℕ, i < n → h.began[i]? = some (some t) → t < h.clock →
    ⟨h.clock, i, some t⟩ ∈ cur

/-- What the code makes of a look. -/
def Look.info (limit : ℕ) (l : Look) : Option HangInfo :=
  TaskMonitor.hangInfo limit (asU64 l.clock) l.worker (stamp l.began)

structure Scans (threshold : Option ℕ) (s : TaskMonitor) (h : HangHistory) : Prop where
  told : s.reported ++ s.hung = h.seen.filterMap (Look.info (thresholdNanos threshold))
  /-- all of the last scan was reported -/
  done : s.watchdog.inScan = false → s.hung = []
  now : s.watchdog = .timed ∨ s.watchdog.inScan = true → s.nowNanos = asU64 h.clock
  scan : s.watchdog.inScan = true → ∃ old cur, h.seen = old ++ cur ∧ ScanOf s.idx h cur

theorem filterMap_singleton {α β : Type*} (f : α → Option β) (x : α) :
    [x].filterMap f = (f x).toList := by
  cases h : f x <;> simp [h]

namespace Scans

/-- The watchdog moves on outside of a scan. -/
theorem turn (hi : Scans threshold s h) (hs : s.watchdog.inScan = false)
    (hr : s'.reported = s.reported) (hh : s'.hung = s.hung) (hp : s'.watchdog.inScan = false)
    (ht : s'.watchdog ≠ .timed) : Scans threshold s' h where
  told := by rw [hr, hh, hi.told]
  done _ := hh.trans (hi.done hs)
  now hn := by
    rcases hn with hn | hn
    · exact absurd hn ht
    · rw [hp] at hn
      cases hn
  scan hn := by
    rw [hp] at hn
    cases hn

/-- A worker starts a task after the clock was read, or finishes one, or is new. -/
theorem worker (hi : Scans threshold s h) {l : List ℕ} {b : List (Option ℕ)}
    (hb : ∀ i t : ℕ, b[i]? = some (some t) → t < h.clock → h.began[i]? = some (some t)) :
    Scans threshold { s with slots := l } { h with began := b } where
  told := hi.told
  done := hi.done
  now := hi.now
  scan hn := by
    obtain ⟨old, cur, hseen, hw, hc, hs⟩ := hi.scan hn
    refine ⟨old, cur, hseen, hw, hc, fun i t hlt he ht => ?_⟩
    exact hs i t hlt (hb i t he ht) ht

theorem scanStep (hi : Scans threshold s h) (hst : Stamped s h) (hp : s.watchdog = .scanning) :
    Scans threshold (s.next threshold true .scan) (h.record s .scan) := by
  have here : s.watchdog.inScan = true := by rw [hp]; rfl
  obtain ⟨old, cur, hseen, hw, hc, hs⟩ := hi.scan here
  have slot : s.slots[s.idx]? = h.began[s.idx]?.map stamp := by rw [hst.slots, List.getElem?_map]
  simp only [TaskMonitor.next, HangHistory.record]
  cases hb : h.began[s.idx]? with
  | none =>
      rw [hb] at slot
      simp only [slot, Option.map_none]
      refine ⟨hi.told, fun e => ?_, fun _ => hi.now (.inr here), fun _ =>
        ⟨old, cur, hseen, hw, hc, hs⟩⟩
      cases e
  | some b =>
      rw [hb] at slot
      simp only [slot, Option.map_some]
      refine ⟨?_, fun hn => ?_, fun _ => hi.now (.inr here), fun _ =>
        ⟨old, cur ++ [⟨h.clock, s.idx, b⟩], ?_, ?_, fun l hl => ?_, fun i t hlt he ht => ?_⟩⟩
      · rw [List.filterMap_append, filterMap_singleton, ← hi.told, List.append_assoc,
          hi.now (.inr here)]
        rfl
      · rw [show s.watchdog.inScan = false from hn] at here
        cases here
      · rw [hseen, List.append_assoc]
      · simp [hw, List.range_succ]
      · rcases List.mem_append.mp hl with hl | hl
        · exact hc l hl
        · rw [List.mem_singleton.mp hl]
      · rcases Nat.lt_succ_iff_lt_or_eq.mp hlt with hlt | rfl
        · exact List.mem_append_left _ (hs i t hlt he ht)
        · cases hb.symm.trans he
          exact List.mem_append_right _ (List.mem_singleton_self _)

theorem next (hi : Scans threshold s h) (hst : Stamped s h) {a : MonitorAct} (ha : s.Enabled a) :
    Scans threshold (s.next threshold true a) (h.record s a) := by
  cases a with
  | tick d => exact ⟨hi.told, hi.done, hi.now, hi.scan⟩
  | lock | beginWait | reacquire | dropGuard =>
      have idle : s.watchdog.inScan = false := by rw [show s.watchdog = _ from ha]; rfl
      exact hi.turn idle rfl rfl rfl fun e => by cases e
  | wake r =>
      have idle : s.watchdog.inScan = false := by rw [ha.1]; rfl
      exact hi.turn idle rfl rfl rfl fun e => by cases e
  | check =>
      have idle : s.watchdog.inScan = false := by rw [show s.watchdog = _ from ha]; rfl
      simp only [TaskMonitor.next]
      refine hi.turn idle rfl rfl ?_ ?_ <;> dsimp only <;> split
      · rfl
      · rfl
      · exact fun e => by cases e
      · exact fun e => by cases e
  | readClock =>
      have idle : s.watchdog.inScan = false := by rw [show s.watchdog = _ from ha]; rfl
      exact ⟨hi.told, fun _ => hi.done idle, fun _ => rfl, fun e => by cases e⟩
  | lockSlots =>
      have hp : s.watchdog = .timed := ha
      have none : s.hung = [] := hi.done (by rw [hp]; rfl)
      refine ⟨?_, (fun e => by cases e), fun _ => hi.now (.inl hp), fun _ =>
        ⟨h.seen, [], ?_, rfl, fun l hl => ?_, fun i t hlt => ?_⟩⟩
      · have told := hi.told
        rw [none] at told
        exact told
      · exact (List.append_nil _).symm
      · cases hl
      · exact absurd hlt (Nat.not_lt_zero i)
  | scan => exact hi.scanStep hst ha
  | report =>
      have here : s.watchdog.inScan = true := by rw [show s.watchdog = _ from ha]; rfl
      simp only [TaskMonitor.next]
      split
      next hn =>
        refine ⟨hi.told, fun _ => hn, fun e => ?_, fun e => ?_⟩
        · rcases e with e | e <;> cases e
        · cases e
      next info hung hn =>
        refine ⟨?_, fun hc => ?_, hi.now, hi.scan⟩
        · have told := hi.told
          rw [hn] at told
          exact (List.append_assoc ..).trans told
        · rw [show s.watchdog.inScan = false from hc] at here
          cases here
  | registerWorker =>
      refine hi.worker fun i t he _ => ?_
      rcases getElem?_concat.mp he with he | ⟨-, he⟩
      · exact he
      · cases he
  | taskStarted i =>
      refine hi.worker fun j t he ht => ?_
      by_cases hj : i = j
      · subst hj
        rw [List.getElem?_set, if_pos rfl] at he
        split at he
        · -- a task that is started now is not older than the clock
          cases he
          exact absurd hst.clock (Nat.not_le.mpr ht)
        · cases he
      · rwa [List.getElem?_set_ne hj] at he
  | taskFinished i =>
      refine hi.worker fun j t he _ => ?_
      by_cases hj : i = j
      · subst hj
        rw [List.getElem?_set, if_pos rfl] at he
        split at he <;> cases he
      · rwa [List.getElem?_set_ne hj] at he
  | drop => exact ⟨hi.told, hi.done, hi.now, hi.scan⟩
  | storeShutdown => exact ⟨hi.told, hi.done, hi.now, hi.scan⟩
  | setNotified => exact ⟨hi.told, hi.done, hi.now, hi.scan⟩
  | notifyOne =>
      simp only [TaskMonitor.next]
      split
      next hw => exact hi.turn (by rw [hw]; rfl) rfl rfl rfl fun e => by cases e
      next => exact ⟨hi.told, hi.done, hi.now, hi.scan⟩
  | join => exact ⟨hi.told, hi.done, hi.now, hi.scan⟩

end Scans

theorem scans_of_reachable {x : TaskMonitor × HangHistory}
    (hx : (hangMachine threshold).Reachable x) : Stamped x.1 x.2 ∧ Scans threshold x.1 x.2 := by
  refine hx.invariant (I := fun x => Stamped x.1 x.2 ∧ Scans threshold x.1 x.2) ?_
    fun x a _ hi _ ha => ⟨hi.1.next a, hi.2.next hi.1 ha⟩
  rintro ⟨s, h⟩ ⟨hs, rfl⟩
  obtain rfl : s = .build threshold := hs
  have idle : (TaskMonitor.build threshold).watchdog.inScan = false ∧
      (TaskMonitor.build threshold).watchdog ≠ .timed := by
    cases threshold <;> exact ⟨rfl, nofun⟩
  refine ⟨⟨rfl, nofun, Nat.le_refl _, nofun⟩, rfl, fun _ => rfl, fun hn => ?_, fun hn => ?_⟩
  · rcases hn with hn | hn
    · exact absurd hn idle.2
    · rw [idle.1] at hn
      cases hn
  · rw [idle.1] at hn
    cases hn

/-- One worker hangs, one has just begun, and one is done when the scan comes to it. -/
def hangRun : List MonitorAct :=
  [.lock, .beginWait, .registerWorker, .registerWorker, .registerWorker, .taskStarted 0,
    .taskStarted 2, .tick 9, .taskStarted 1, .wake .timeout, .reacquire, .dropGuard, .check,
    .readClock, .lockSlots, .scan, .scan, .tick 3, .taskFinished 2, .scan, .scan]

end RustTask
