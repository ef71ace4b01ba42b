import Mathlib.Algebra.GroupWithZero.Nat
import RustBase.Async.NetLog
import RustBase.Async.Parked
import RustBase.Support.Progress

/-!
# Async — a waiting operation is served

A task whose operation returned `Poll::Pending` waits for its waker, and the IO thread is what gets
it there: it runs the arm tasks, waits for the descriptor, and calls the source.

* `rank`: how many steps the IO thread may still take before it wakes the waiting task.  Arm tasks
  posted before the task began to wait may not ask for its direction, and the entry of such a one
  may fire for the other direction first; every arm task posted since does ask for it.  The other
  direction may post one more, when it begins to wait as well.
* A dispatch of an entry that asks for a direction reports it when the descriptor is ready for it
  (`Reports`): `epoll` is level-triggered.

No step of another task raises the rank, whatever it does with the other direction, so the task is
woken within `rank` steps of the IO thread (`woken_within`); and the operation, when it is polled
after that, returns.
-/

namespace RustAsync
open Support RustIo

def otherDirection : Direction → Direction
  | .read => .write
  | .write => .read

theorem eq_otherDirection {d d' : Direction} (h : d' ≠ d) : d' = otherDirection d := by
  cases d <;> cases d' <;> first | rfl | exact absurd rfl h

theorem otherDirection_ne (d : Direction) : otherDirection d ≠ d := by cases d <;> nofun

/-! ### The work of the IO thread -/

/-- An arm task that asks for the direction is run and is done with; one that does not leaves an
entry, which has to fire. -/
def armRank (d : Direction) (mode : WatchMode) : ℕ := if mode.covers d then 1 else 7

def armsRank (d : Direction) (modes : List WatchMode) : ℕ := (modes.map (armRank d)).sum

theorem armsRank_append (d : Direction) (l m : List WatchMode) :
    armsRank d (l ++ m) = armsRank d l + armsRank d m := by
  simp [armsRank]

theorem armsRank_le (d : Direction) (l : List WatchMode) : armsRank d l ≤ 7 * l.length := by
  induction l with
  | nil => exact Nat.le_refl _
  | cons m l ih =>
      have one : armRank d m ≤ 7 := by
        rw [armRank]
        split <;> omega
      simp only [armsRank, List.map_cons, List.sum_cons, List.length_cons] at ih ⊢
      omega

/-- The steps to the end of the dispatch.  A call leaves two more steps behind: the arm task it
posts, and that of the next poll of its direction. -/
def SourcePhase.rank : SourcePhase → ℕ
  | .idle => 0
  | .calling cs => 4 * cs.length + 1
  | .waking _ _ cs => 4 * cs.length + 2

/-- The steps to the call of the direction, when it is one of those to be made. -/
def SourcePhase.stepsTo (d : Direction) : SourcePhase → ℕ
  | .idle => 0
  | .calling cs => 2 * cs.findIdx (·.direction = d) + 2
  | .waking _ _ cs => 2 * cs.findIdx (·.direction = d) + 3

namespace ReactorState

variable {s : ReactorState} {d : Direction} {w : WakerId} {a : SourceAct}

/-- The entry of the descriptor does not ask for the direction. -/
def staleEntry (s : ReactorState) (d : Direction) : ℕ :=
  match s.table.watches s.fd with
  | some e => if e.mode.covers d then 0 else 6
  | none => 0

/-- The other direction is not waited on, and may post an arm task when it is. -/
def spare (s : ReactorState) (d : Direction) : ℕ :=
  if s.source.waker (otherDirection d) = none then 1 else 0

/-- The call of the direction is one of those to be made. -/
def Called (s : ReactorState) (d : Direction) : Prop := ∃ c ∈ s.phase.calls, c.direction = d

instance (s : ReactorState) (d : Direction) : Decidable (s.Called d) :=
  inferInstanceAs (Decidable (∃ c ∈ _, _))

/-- How many steps the IO thread may take before it wakes the waker of the direction. -/
def rank (s : ReactorState) (d : Direction) : ℕ :=
  if s.source.waker d = none then 1
  else if s.Called d then s.phase.stepsTo d
  else armsRank d s.armTasks + s.staleEntry d + s.spare d + s.phase.rank + 5

/-- The waker is in its slot, or has been taken out of it and is about to be invoked. -/
def Waits (s : ReactorState) (d : Direction) (w : WakerId) : Prop :=
  s.source.waker d = some w ∨
    s.source.waker d = none ∧ s.source.ready d = true ∧ ∃ cs, s.phase = .waking d (some w) cs

/-- The waker was taken out of its slot and invoked, after the first `n` events of the log, and the
latch is set for the next poll. -/
def Notified (s : ReactorState) (n : ℕ) (d : Direction) (w : WakerId) : Prop :=
  s.source.waker d = none ∧ s.source.ready d = true ∧ .woke d w ∈ s.log.drop n

/-- The entry of the descriptor fires once. -/
def OneShot (s : ReactorState) : Prop := ∀ e ∈ s.table.watches s.fd, e.persistent = false

/-- A dispatch reports the direction when the entry asks for it. -/
def Reports (s : ReactorState) (d : Direction) : SourceAct → Prop
  | .dispatch flags =>
      ∀ e ∈ s.table.watches s.fd, e.mode.covers d = true → canDo flags e.mode d = true
  | _ => True

theorem watches_arm (s : ReactorState) (mode : WatchMode) (rest : List WatchMode) :
    ∃ g, (s.arm mode rest true).table.watches s.fd = some ⟨s.id, false, mode, g⟩ :=
  FdWatchController.watches_watch s.controller s.table s.fd false mode s.id

theorem dispatch_eq {e : WatchEntry} (he : e ∈ s.table.watches s.fd) (h : e.persistent = false)
    (flags : UInt32) : s.dispatch flags =
      { s with table := s.table.remove s.fd, phase := .calling (calls s.fd flags e) } := by
  simp [dispatch, Option.mem_def.mp he, h]

theorem watches_remove (t : WatchTable) (fd : Fd) : (t.remove fd).watches fd = none :=
  Function.update_self ..

theorem OneShot.next (h : s.OneShot) (ha : s.Enabled a) (hr : a.Registers) : (s.next a).OneShot := by
  cases a with
  | poll d w => exact h
  | arm mode rest ok =>
      obtain rfl : ok = true := hr
      obtain ⟨g, hg⟩ := s.watches_arm mode rest
      intro e he
      cases (Option.mem_def.mp he).symm.trans hg
      rfl
  | dispatch flags =>
      obtain ⟨-, e, he, -⟩ := ha
      simp only [ReactorState.next, dispatch_eq he (h e he)]
      intro e' he'
      cases (Option.mem_def.mp he').symm.trans (watches_remove s.table s.fd)
  | call c cs => exact h
  | wake d w cs => exact h
  | dispatchDone => exact h

/-! ### One step -/

/-- The rank while the waker is in its slot and its call is not one of those to be made. -/
theorem rank_of_not_called (hw : s.source.waker d = some w) (hc : ¬ s.Called d) :
    s.rank d = armsRank d s.armTasks + s.staleEntry d + s.spare d + s.phase.rank + 5 := by
  rw [rank, if_neg (by rw [hw]; nofun), if_neg hc]

theorem rank_of_called (hw : s.source.waker d = some w) (hc : s.Called d) :
    s.rank d = s.phase.stepsTo d := by
  rw [rank, if_neg (by rw [hw]; nofun), if_pos hc]

theorem rank_of_taken (hw : s.source.waker d = none) : s.rank d = 1 := by
  rw [rank, if_pos hw]

/-- Every arm task that is posted while the direction is waited on asks for it. -/
theorem armsRank_updateArm {x : SourceState} (hx : (x.waker d).isSome) :
    armsRank d x.updateArm.2.toList ≤ 1 := by
  obtain ⟨m, hm, hc⟩ := SourceState.covers_desired hx
  unfold SourceState.updateArm
  split
  · simp [hm, armsRank, armRank, hc]
  · simp [armsRank]

/-- A poll of the other direction posts an arm task only if that was not waited on. -/
theorem armsRank_poll (inv : Inv s) (hw : s.source.waker d = some w) {d' : Direction} (hd : d' ≠ d)
    (w' : WakerId) (hr : s.source.ready d' = false) :
    armsRank d (s.source.setWaker d' (some w')).updateArm.2.toList ≤ s.spare d := by
  obtain rfl := eq_otherDirection hd
  have wakers := SourceState.waker_setWaker s.source (otherDirection d) (some w')
  cases ho : s.source.waker (otherDirection d) with
  | none =>
      rw [spare, if_pos ho]
      refine armsRank_updateArm ?_
      rw [wakers, Function.update_of_ne (otherDirection_ne d).symm, hw]
      rfl
  | some v =>
      -- both directions are waited on already, and that is what the source is armed for
      have same : (s.source.setWaker (otherDirection d) (some w')).updateArm.2 = none := by
        have armed := inv.armed
        cases d <;> simp_all [SourceState.updateArm, SourceState.desired, SourceState.setWaker,
          SourceState.waker, otherDirection]
      simp [same, armsRank]

theorem waker_poll_of_ne {d' : Direction} (hd : d' ≠ d) (w' : WakerId) :
    (s.poll d' w').source.waker d = s.source.waker d := by
  rcases poll_cases s d' w' with ⟨-, h⟩ | ⟨-, h⟩
  · rw [h]
  · rw [h, Function.update_of_ne hd.symm]

theorem ready_poll_of_ne {d' : Direction} (hd : d' ≠ d) (w' : WakerId) :
    (s.poll d' w').source.ready d = s.source.ready d := by
  rw [ready_poll, Function.update_of_ne hd.symm]

/-- A poll of the other direction. -/
theorem Waits.poll (inv : Inv s) (h : s.Waits d w) {d' : Direction} (hd : d' ≠ d) (w' : WakerId) :
    (s.poll d' w').Waits d w ∧ (s.poll d' w').rank d ≤ s.rank d := by
  have hwaker := waker_poll_of_ne (s := s) hd w'
  have hphase : (s.poll d' w').phase = s.phase := rfl
  refine ⟨?_, ?_⟩
  · rcases h with h | ⟨hn, hr, hp⟩
    · exact .inl (hwaker.trans h)
    · exact .inr ⟨hwaker.trans hn, (ready_poll_of_ne hd w').trans hr, hp⟩
  · rcases h with h | ⟨hn, -, -⟩
    · by_cases hc : s.Called d
      · rw [rank_of_called h hc, rank_of_called (hwaker.trans h) hc, hphase]
      · rw [rank_of_not_called h hc, rank_of_not_called (hwaker.trans h) hc, hphase]
        cases hr : s.source.ready d' with
        | true =>
            rw [poll_of_ready w' hr]
            have same := congrFun (SourceState.waker_setReady s.source d' false) (otherDirection d)
            simp only [spare, same]
            exact Nat.le_refl _
        | false =>
            have posted := armsRank_poll inv h hd w' hr
            have taken : (s.poll d' w').spare d = 0 := by
              rw [spare, poll_of_not_ready w' hr, SourceState.waker_updateArm,
                SourceState.waker_setWaker, ← eq_otherDirection hd, Function.update_self]
              rfl
            rw [taken, poll_of_not_ready w' hr, armsRank_append]
            simp only [staleEntry]
            omega
    · rw [rank_of_taken hn, rank_of_taken (hwaker.trans hn)]

/-- While no dispatch is in progress the waker is in its slot. -/
theorem Waits.stored (h : s.Waits d w) (hi : s.phase = .idle) :
    s.source.waker d = some w ∧ ¬ s.Called d := by
  refine ⟨?_, ?_⟩
  · rcases h with h | ⟨-, -, cs, hp⟩
    · exact h
    · rw [hi] at hp; cases hp
  · rintro ⟨c, hc, -⟩
    rw [hi] at hc
    cases hc

theorem Waits.arm (h : s.Waits d w) {mode : WatchMode} {rest : List WatchMode}
    (hi : s.phase = .idle) (ht : s.armTasks = mode :: rest) :
    (s.arm mode rest true).Waits d w ∧ (s.arm mode rest true).rank d + 1 ≤ s.rank d := by
  obtain ⟨hw, hc⟩ := h.stored hi
  refine ⟨.inl hw, ?_⟩
  obtain ⟨g, hg⟩ := s.watches_arm mode rest
  have entry : (s.arm mode rest true).staleEntry d = if mode.covers d then 0 else 6 := by
    have hg' : (s.arm mode rest true).table.watches (s.arm mode rest true).fd = _ := hg
    rw [staleEntry, hg']
  have same : (s.arm mode rest true).spare d = s.spare d := rfl
  have phase : (s.arm mode rest true).phase = .idle := hi
  have tasks : (s.arm mode rest true).armTasks = rest := rfl
  rw [rank_of_not_called hw hc, rank_of_not_called (s := s.arm mode rest true) hw hc, entry, same,
    phase, hi, tasks, ht]
  simp only [armsRank, armRank, List.map_cons, List.sum_cons]
  split <;> omega

theorem length_calls_le (fd : Fd) (flags : UInt32) (e : WatchEntry) :
    (calls fd flags e).length ≤ 2 :=
  List.length_filterMap_le ..

/-- An entry that asks for one direction comes to one call. -/
theorem length_calls_of_not_covers (fd : Fd) (flags : UInt32) {e : WatchEntry}
    (h : e.mode.covers d = false) : (calls fd flags e).length ≤ 1 := by
  have none : canDo flags e.mode d = false := by simp [canDo, h]
  cases d with
  | read =>
      by_cases hw : canDo flags e.mode .write <;> simp [calls, none, hw]
  | write =>
      by_cases hr : canDo flags e.mode .read <;> simp [calls, none, hr]

theorem Waits.dispatch (hone : s.OneShot) (h : s.Waits d w) {flags : UInt32} {e : WatchEntry}
    (hi : s.phase = .idle) (he : e ∈ s.table.watches s.fd)
    (hrep : e.mode.covers d = true → canDo flags e.mode d = true) :
    (s.dispatch flags).Waits d w ∧ (s.dispatch flags).rank d + 1 ≤ s.rank d := by
  obtain ⟨hw, hc⟩ := h.stored hi
  rw [dispatch_eq he (hone e he)]
  refine ⟨.inl hw, ?_⟩
  rw [rank_of_not_called hw hc, hi]
  cases hcov : e.mode.covers d with
  | true =>
      -- the call of the direction is one of at most two
      have called : (⟨s.fd, e.watcher, e.generation, d⟩ : Call) ∈ calls s.fd flags e :=
        mem_calls.mpr ⟨rfl, rfl, rfl, hrep hcov⟩
      have short : (calls s.fd flags e).findIdx (·.direction = d) < (calls s.fd flags e).length :=
        List.findIdx_lt_length_of_exists ⟨_, called, by simp⟩
      have two := length_calls_le s.fd flags e
      rw [rank_of_called (s := { s with
        table := s.table.remove s.fd
        phase := .calling (calls s.fd flags e) }) hw ⟨_, called, rfl⟩]
      simp only [SourcePhase.stepsTo]
      omega
  | false =>
      have entry : s.staleEntry d = 6 := by
        rw [staleEntry, Option.mem_def.mp he]
        simp [hcov]
      have one := length_calls_of_not_covers s.fd flags hcov
      rw [rank_of_not_called (s := { s with
        table := s.table.remove s.fd
        phase := .calling (calls s.fd flags e) }) hw ?_]
      · simp only [staleEntry, watches_remove, SourcePhase.rank, spare] at entry ⊢
        omega
      · rintro ⟨c, hmem, hd⟩
        have can := (mem_calls.mp hmem).2.2.2
        simp [hd, canDo, hcov] at can

theorem Waits.call (h : s.Waits d w) {c : Call} {cs : List Call}
    (hp : s.phase = .calling (c :: cs)) :
    (s.call c cs).Waits d w ∧ (s.call c cs).rank d + 1 ≤ s.rank d := by
  have hw : s.source.waker d = some w := by
    rcases h with h | ⟨-, -, cs', hp'⟩
    · exact h
    · rw [hp] at hp'; cases hp'
  have hwaker := waker_call s c cs
  have hphase : (s.call c cs).phase = .waking c.direction (s.source.waker c.direction) cs := rfl
  by_cases hd : c.direction = d
  · -- the waker is taken, and its wake-up is next
    have taken : (s.call c cs).source.waker d = none := by
      rw [hwaker, hd, Function.update_self]
    refine ⟨.inr ⟨taken, ?_, cs, ?_⟩, ?_⟩
    · rw [ready_call, hd, Function.update_self]
    · rw [hphase, hd, hw]
    · have called : s.Called d := ⟨c, by rw [hp]; exact List.mem_cons_self, hd⟩
      rw [rank_of_taken taken, rank_of_called hw called, hp, SourcePhase.stepsTo]
      omega
  · have stored : (s.call c cs).source.waker d = some w := by
      rw [hwaker, Function.update_of_ne (Ne.symm hd), hw]
    refine ⟨.inl stored, ?_⟩
    by_cases hc : s.Called d
    · have called : (s.call c cs).Called d := by
        obtain ⟨c', hm, hd'⟩ := hc
        rw [hp] at hm
        refine ⟨c', (List.mem_cons.mp hm).resolve_left fun e => hd (e ▸ hd'), hd'⟩
      rw [rank_of_called stored called, rank_of_called hw hc, hphase, hp]
      simp only [SourcePhase.stepsTo, List.findIdx_cons, hd, decide_false, cond_false]
      omega
    · have called : ¬ (s.call c cs).Called d := by
        rintro ⟨c', hm, hd'⟩
        exact hc ⟨c', by rw [hp]; exact List.mem_cons_of_mem _ hm, hd'⟩
      have tasks : armsRank d (s.call c cs).armTasks ≤ armsRank d s.armTasks + 1 := by
        simp only [ReactorState.call, SourceState.onFileReady, armsRank_append]
        refine Nat.add_le_add_left (armsRank_updateArm ?_) _
        rw [SourceState.waker_setWaker, SourceState.waker_setReady,
          Function.update_of_ne (Ne.symm hd)]
        exact Option.isSome_iff_exists.mpr ⟨w, hw⟩
      have spare : (s.call c cs).spare d ≤ 1 := by
        rw [ReactorState.spare]
        split <;> omega
      have entry : (s.call c cs).staleEntry d = s.staleEntry d := rfl
      rw [rank_of_not_called stored called, rank_of_not_called hw hc, hphase, hp, entry]
      simp only [SourcePhase.rank, List.length_cons]
      omega

theorem Waits.wake (h : s.Waits d w) {n : ℕ} (hn : n ≤ s.log.length) {d' : Direction}
    {v : Option WakerId} {cs : List Call} (hp : s.phase = .waking d' v cs) :
    (s.next (.wake d' v cs)).Notified n d w ∨
      (s.next (.wake d' v cs)).Waits d w ∧ (s.next (.wake d' v cs)).rank d + 1 ≤ s.rank d := by
  rcases h with h | ⟨hnone, hr, cs', hp'⟩
  · have stored : (s.next (.wake d' v cs)).source.waker d = some w := h
    have same : (s.next (.wake d' v cs)).Called d ↔ s.Called d := by
      simp only [Called, hp]
      rfl
    refine .inr ⟨.inl h, ?_⟩
    by_cases hc : s.Called d
    · rw [rank_of_called stored (same.mpr hc), rank_of_called h hc, hp]
      simp only [ReactorState.next, SourcePhase.stepsTo]
      omega
    · have entry : (s.next (.wake d' v cs)).staleEntry d = s.staleEntry d := rfl
      have spare : (s.next (.wake d' v cs)).spare d = s.spare d := rfl
      rw [rank_of_not_called stored (mt same.mp hc), rank_of_not_called h hc, hp, entry, spare]
      simp only [ReactorState.next, SourcePhase.rank]
      omega
  · cases hp.symm.trans hp'
    refine .inl ⟨hnone, hr, ?_⟩
    simp only [ReactorState.next, List.drop_append_of_le_length hn]
    exact List.mem_append_right _ (by simp)

theorem Waits.dispatchDone (h : s.Waits d w) (hp : s.phase = .calling []) :
    (s.next .dispatchDone).Waits d w ∧ (s.next .dispatchDone).rank d + 1 ≤ s.rank d := by
  have hw : s.source.waker d = some w := by
    rcases h with h | ⟨-, -, cs', hp'⟩
    · exact h
    · rw [hp] at hp'; cases hp'
  have none : ¬ s.Called d := by
    rintro ⟨c, hc, -⟩
    rw [hp] at hc
    cases hc
  refine ⟨.inl hw, ?_⟩
  have none' : ¬ (s.next .dispatchDone).Called d := by
    rintro ⟨c, hc, -⟩
    cases hc
  have entry : (s.next .dispatchDone).staleEntry d = s.staleEntry d := rfl
  have spare : (s.next .dispatchDone).spare d = s.spare d := rfl
  rw [rank_of_not_called (s := s.next .dispatchDone) hw none', rank_of_not_called hw none, hp, entry,
    spare]
  simp only [ReactorState.next, SourcePhase.rank, List.length_nil]
  omega

/-- Every step but a poll of the direction itself leaves the waker waiting with no higher a rank, a
lower one if it is a step of the IO thread, or has woken it. -/
theorem Waits.next (inv : Inv s) (hone : s.OneShot) (h : s.Waits d w) {n : ℕ}
    (hn : n ≤ s.log.length) (ha : s.Enabled a) (hr : a.Registers) (hrep : s.Reports d a)
    (hp : ∀ w', a ≠ .poll d w') :
    (s.next a).Notified n d w ∨
      (s.next a).Waits d w ∧ (s.next a).rank d + (if a.IsIo then 1 else 0) ≤ s.rank d := by
  cases a with
  | poll d' w' =>
      have hd : d' ≠ d := fun e => hp w' (e ▸ rfl)
      exact .inr (h.poll inv hd w')
  | arm mode rest ok =>
      obtain rfl : ok = true := hr
      exact .inr (h.arm ha.1 ha.2)
  | dispatch flags =>
      obtain ⟨hi, e, he, -⟩ := ha
      exact .inr (h.dispatch hone hi he (hrep e he))
  | call c cs => exact .inr (h.call ha)
  | wake d' v cs => exact h.wake hn ha
  | dispatchDone => exact .inr (h.dispatchDone ha)

/-- The IO thread can take a step. -/
theorem Waits.exists_io (inv : Inv s) (h : s.Waits d w) :
    ∃ a : SourceAct, a.IsIo ∧ a.Registers ∧ (∀ d', s.Reports d' a) ∧ s.Enabled a := by
  cases hp : s.phase with
  | idle =>
      obtain ⟨hw, -⟩ := h.stored hp
      cases ht : s.armTasks with
      | cons mode rest => exact ⟨.arm mode rest true, trivial, rfl, fun _ => trivial, hp, ht⟩
      | nil =>
          rcases inv.armed_of_waker hp (Option.isSome_iff_exists.mpr ⟨w, hw⟩) with
            ⟨m, hm, -⟩ | ⟨-, e, he, -, hcov⟩
          · rw [ht] at hm; cases hm
          · -- an error is reported for every direction asked for
            have can : ∀ d', e.mode.covers d' = true → canDo epollHup e.mode d' = true := by
              intro d' hd'
              simp only [canDo, hd', Bool.and_true]
              cases d' <;> decide
            refine ⟨.dispatch epollHup, trivial, trivial, fun d' e' he' hd' => ?_, hp, e, he,
              meets_iff.mpr ⟨d, can d hcov⟩⟩
            cases (Option.mem_def.mp he).symm.trans he'
            exact can d' hd'
  | calling cs =>
      cases cs with
      | nil => exact ⟨.dispatchDone, trivial, trivial, fun _ => trivial, hp⟩
      | cons c cs => exact ⟨.call c cs, trivial, trivial, fun _ => trivial, hp⟩
  | waking d' v cs => exact ⟨.wake d' v cs, trivial, trivial, fun _ => trivial, hp⟩

theorem rank_le (s : ReactorState) (d : Direction) :
    s.rank d ≤ 7 * s.armTasks.length + 4 * s.phase.calls.length + 14 := by
  have arms := armsRank_le d s.armTasks
  have entry : s.staleEntry d ≤ 6 := by
    rw [staleEntry]
    split
    · split <;> omega
    · omega
  have spare : s.spare d ≤ 1 := by
    rw [ReactorState.spare]
    split <;> omega
  have phase : s.phase.rank ≤ 4 * s.phase.calls.length + 2 := by
    cases s.phase <;> simp [SourcePhase.rank, SourcePhase.calls]
  have steps : s.phase.stepsTo d ≤ 4 * s.phase.calls.length + 3 := by
    have short : ∀ cs : List Call, cs.findIdx (·.direction = d) ≤ cs.length :=
      fun cs => List.findIdx_le_length
    cases hp : s.phase with
    | idle => simp [SourcePhase.stepsTo]
    | calling cs =>
        have := short cs
        simp only [SourcePhase.stepsTo, SourcePhase.calls]
        omega
    | waking d' v cs =>
        have := short cs
        simp only [SourcePhase.stepsTo, SourcePhase.calls]
        omega
  rw [rank]
  split
  · omega
  · split <;> omega

end ReactorState

/-! ### Sockets that stay ready -/

/-- When a descriptor is ready for a direction.  No call of that direction blocks then, and only such
a call ends it. -/
structure Socket.Level {κ ι ρ ε : Type*} (S : Socket κ ι ρ ε) where
  Ready : κ → Direction → Prop
  call_ne_none : ∀ x k, Ready k (S.direction x) → S.call x k ≠ none
  env : ∀ e k d, Ready k d → Ready (S.env e k) d
  call : ∀ x k r k' d, S.call x k = some (r, k') → S.direction x ≠ d → Ready k d → Ready k' d

namespace TcpKernel

variable {k k' : TcpKernel} {d : Direction}

/-- A stream is ready to be read when there is something to read or nothing more will come, and to
be written when there is room or writing fails. -/
def Ready (k : TcpKernel) : Direction → Prop
  | .read => k.inbound ≠ [] ∨ k.eof = true
  | .write => 0 < k.room ∨ k.writeShut = true

theorem Ready.call_ne_none {x : TcpCall} (h : k.Ready (direction x)) : call x k ≠ none := by
  cases x with
  | read len =>
      by_cases hi : k.inbound = []
      · have heof : k.eof = true := h.resolve_left fun hn => hn hi
        cases he : k.error <;> simp [call, hi, he, heof]
      · simp [call, hi]
  | write buf =>
      cases he : k.error with
      | some e => simp [call, he]
      | none =>
          by_cases hs : k.writeShut = true
          · simp [call, he, hs]
          · have hroom : k.room ≠ 0 := Nat.ne_of_gt (h.resolve_right hs)
            by_cases hb : buf = [] <;> simp [call, he, hs, hb, hroom]
  | shutdownWrite => cases hr : k.reset <;> simp [call, hr]

theorem Ready.env (h : k.Ready d) (e : TcpPeer) : (k.env e).Ready d := by
  cases e with
  | send bs =>
      simp only [TcpKernel.env]
      split
      · exact h
      · cases d with
        | read => exact h.imp_left fun h e => h (List.append_eq_nil_iff.mp e).1
        | write => exact h
  | fin =>
      cases d with
      | read => exact .inr rfl
      | write => exact h
  | reset e => cases d <;> exact .inr rfl
  | drain n =>
      cases d with
      | read => exact h
      | write => exact h.imp_left fun h => Nat.add_pos_left h n
  | setLimit n => cases d <;> exact h

/-- A read leaves the send buffer alone. -/
theorem call_read {len : ℕ} {r : Except IoError Bytes} (h : call (.read len) k = some (r, k')) :
    k'.room = k.room ∧ k'.writeShut = k.writeShut := by
  simp only [call] at h
  split at h
  · cases h
    exact ⟨rfl, rfl⟩
  · split at h
    · cases h
      exact ⟨rfl, rfl⟩
    · split at h
      · cases h
        exact ⟨rfl, rfl⟩
      · cases h

/-- Whatever a call of the other direction returns, it leaves what there is to read. -/
theorem inbound_call {x : TcpCall} {r : Except IoError Bytes} (h : call x k = some (r, k'))
    (hx : direction x ≠ .read) : k'.inbound = k.inbound ∧ k'.eof = k.eof := by
  obtain ⟨-, heof, -, ht⟩ := call_cases h
  refine ⟨?_, heof⟩
  match x, r, ht with
  | .read len, _, _ => exact absurd rfl hx
  | .write buf, .ok bs, ht => exact ht.1
  | .write buf, .error e, ht => exact ht
  | .shutdownWrite, .ok bs, ht => exact ht.1
  | .shutdownWrite, .error e, ht => exact ht

theorem Ready.call (h : k.Ready d) {x : TcpCall} {r : Except IoError Bytes}
    (hc : TcpKernel.call x k = some (r, k')) (hx : direction x ≠ d) : k'.Ready d := by
  cases d with
  | read =>
      obtain ⟨hi, he⟩ := inbound_call hc hx
      simp only [Ready, hi, he]
      exact h
  | write =>
      cases x with
      | read len =>
          obtain ⟨hr, hs⟩ := call_read hc
          simp only [Ready, hr, hs]
          exact h
      | write buf => exact absurd rfl hx
      | shutdownWrite => exact absurd rfl hx

/-- The laws of `Socket.Level` for a stream. -/
def level : tcpStream.Level where
  Ready := Ready
  call_ne_none _ _ h := h.call_ne_none
  env e _ _ h := h.env e
  call _ _ _ _ _ hc hx h := h.call hc hx

end TcpKernel

/-! ### One task for the direction -/

section Task

variable {κ ι ρ ε : Type*} {S : Socket κ ι ρ ε} {k₀ : κ}

def NetPhase.request : NetPhase ι → Option ι
  | .idle => none
  | .trying _ x _ | .blocked _ x _ | .suspended _ x _ => some x

/-- The task whose step it is. -/
def NetAct.task : NetAct κ ι ρ ε → Option ℕ
  | .start t _ _ _ | .resumeFuture t _ _ _ | .resumePoll t _ _ _ _ | .finish t _ _ _ _ _
  | .wouldBlock t _ _ _ | .ready t _ _ _ | .park t _ _ _ | .cancel t _ _ _ => some t
  | .env _ | .io _ => none

/-- The action is a step of the IO thread. -/
def NetAct.IsIo : NetAct κ ι ρ ε → Prop
  | .io _ => True
  | _ => False

instance NetAct.decidableIsIo : ∀ a : NetAct κ ι ρ ε, Decidable a.IsIo
  | .io _ => inferInstanceAs (Decidable True)
  | .start _ _ _ _ | .resumeFuture _ _ _ _ | .resumePoll _ _ _ _ _ | .finish _ _ _ _ _ _
  | .wouldBlock _ _ _ _ | .ready _ _ _ _ | .park _ _ _ _ | .cancel _ _ _ _ | .env _ =>
      inferInstanceAs (Decidable False)

namespace NetState

variable (L : S.Level) (t : ℕ) (d : Direction) {s : NetState κ ι ρ ε} {a : NetAct κ ι ρ ε}

/-- Registrations succeed, a dispatch reports what the descriptor is ready for, and the operations of
the direction are the task's. -/
def Alone (s : NetState κ ι ρ ε) : NetAct κ ι ρ ε → Prop
  | .io a => a.Registers ∧ ∀ d', L.Ready s.kernel d' → s.reactor.Reports d' a
  | .start u _ x _ => S.direction x = d → u = t
  | .resumePoll u _ x' _ _ => S.direction x' = d → u = t
  | _ => True

variable (S) in
/-- A suspended operation of the direction has its waker in the slot, or finds the latch set. -/
structure Attended (s : NetState κ ι ρ ε) : Prop where
  inv : s.reactor.Inv
  oneShot : s.reactor.OneShot
  alone : ∀ u x, (s.ops u).request = some x → S.direction x = d → u = t
  waiting : ∀ f x w, s.ops t = .suspended f x w → S.direction x = d →
    s.reactor.source.waker d = some w ∨
      s.reactor.source.waker d = none ∧ s.reactor.source.ready d = true

variable {L t d}

/-- A step of a task that leaves the source alone. -/
theorem Attended.of_move (h : s.Attended S t d) {s' : NetState κ ι ρ ε} {u : ℕ} {p : NetPhase ι}
    (hr : s'.reactor = s.reactor) (ho : s'.ops = Function.update s.ops u p)
    (hreq : ∀ x, p.request = some x → S.direction x = d → u = t)
    (hp : ∀ f x w, p ≠ .suspended f x w) : s'.Attended S t d := by
  refine ⟨hr ▸ h.inv, hr ▸ h.oneShot, fun v x hv hx => ?_, fun f x w hs hx => ?_⟩
  · rw [ho] at hv
    by_cases huv : v = u
    · rw [huv, Function.update_self] at hv
      exact huv.trans (hreq x hv hx)
    · rw [Function.update_of_ne huv] at hv
      exact h.alone v x hv hx
  · rw [ho] at hs
    by_cases hut : t = u
    · rw [hut, Function.update_self] at hs
      exact absurd hs (hp f x w)
    · rw [Function.update_of_ne hut] at hs
      rw [hr]
      exact h.waiting f x w hs hx

/-- A task polls the source. -/
theorem Attended.of_poll (h : s.Attended S t d) {u : ℕ} {f : OpForm} {x : ι} {w : WakerId}
    (hu : s.ops u = .blocked f x w) {p : NetPhase ι} (hreq : p.request = some x)
    (hp : ∀ g y v, p = .suspended g y v → y = x ∧ v = w ∧
      s.reactor.source.ready (S.direction x) = false)
    (l : List (NetEvent ι ρ ε)) : ((s.pollSource S x w).move u p l).Attended S t d := by
  have polled : s.reactor.Enabled (.poll (S.direction x) w) := trivial
  have mine : S.direction x = d → u = t := h.alone u x (by rw [hu]; rfl)
  refine ⟨h.inv.next polled trivial, h.oneShot.next polled trivial, fun v y hv hy => ?_,
    fun g y v hs hy => ?_⟩
  · simp only [move, pollSource] at hv
    by_cases huv : v = u
    · rw [huv, Function.update_self, hreq] at hv
      cases hv
      exact huv.trans (mine hy)
    · rw [Function.update_of_ne huv] at hv
      exact h.alone v y hv hy
  · simp only [move, pollSource] at hs ⊢
    by_cases hut : t = u
    · rw [hut, Function.update_self] at hs
      obtain ⟨rfl, rfl, hready⟩ := hp g y v hs
      refine .inl ?_
      rw [ReactorState.poll_of_not_ready v hready, SourceState.waker_updateArm,
        SourceState.waker_setWaker, hy, Function.update_self]
    · -- another task polls the other direction
      have hne : S.direction x ≠ d := fun e => hut (mine e).symm
      rw [Function.update_of_ne hut] at hs
      rw [ReactorState.waker_poll_of_ne hne, ReactorState.ready_poll_of_ne hne]
      exact h.waiting g y v hs hy

theorem Attended.io (h : s.Attended S t d) {a : SourceAct} (ha : s.Enabled S (.io a))
    (hr : a.Registers) : (s.next S (.io a)).Attended S t d := by
  obtain ⟨hio, ha⟩ := ha
  refine ⟨h.inv.next ha hr, h.oneShot.next ha hr, h.alone, fun f x w hs hx => ?_⟩
  have hwait := h.waiting f x w hs hx
  cases hc : a.callback with
  | none =>
      simp only [next, ReactorState.source_next s.reactor hio hc]
      exact hwait
  | some d' =>
      obtain ⟨c, cs, rfl⟩ : ∃ c cs, a = .call c cs := by cases a <;> simp_all [SourceAct.callback]
      simp only [next, ReactorState.next, ReactorState.waker_call, ReactorState.ready_call]
      by_cases hd : d = c.direction
      · rw [hd, Function.update_self, Function.update_self]
        exact .inr ⟨rfl, rfl⟩
      · rw [Function.update_of_ne hd, Function.update_of_ne hd]
        exact hwait

theorem Attended.next (h : s.Attended S t d) (ha : s.Enabled S a) (hC : s.Alone L t d a) :
    (s.next S a).Attended S t d := by
  cases a with
  | start u f x w =>
      refine h.of_move rfl rfl (fun y hy hd => ?_) nofun
      cases hy
      exact hC hd
  | resumeFuture u x w w' =>
      refine h.of_move rfl rfl (fun y hy hd => ?_) nofun
      cases hy
      exact h.alone u x (by rw [show s.ops u = _ from ha]; rfl) hd
  | resumePoll u x x' w w' =>
      refine h.of_move rfl rfl (fun y hy hd => ?_) nofun
      cases hy
      exact hC hd
  | finish u f x w r k => exact h.of_move rfl rfl nofun nofun
  | wouldBlock u f x w =>
      refine h.of_move rfl rfl (fun y hy hd => ?_) nofun
      cases hy
      exact h.alone u x (by rw [ha.1]; rfl) hd
  | ready u f x w => exact h.of_poll ha.1 rfl (fun _ _ _ e => by cases e) _
  | park u f x w =>
      refine h.of_poll ha.1 rfl (fun g y v e => ?_) _
      cases e
      exact ⟨rfl, rfl, ha.2⟩
  | cancel u f x w => exact h.of_move rfl rfl nofun nofun
  | env e => exact ⟨h.inv, h.oneShot, h.alone, h.waiting⟩
  | io a => exact h.io ha hC.1

theorem attended_of_reachable (h : (netMachine S k₀).ReachableBy (Alone L t d) s) :
    s.Attended S t d := by
  refine h.invariant ?_ fun s a _ hs hC ha => hs.next ha hC
  rintro s ⟨r, ⟨fd, id, table, htable, rfl⟩, rfl⟩
  refine ⟨.init fd id table, ?_, nofun, nofun⟩
  intro e he
  cases (Option.mem_def.mp he).symm.trans htable

/-- The descriptor stays ready for the direction until an operation of the task returns. -/
theorem ready_next (h : s.Attended S t d) (hr : L.Ready s.kernel d) (ha : s.Enabled S a)
    (hf : ∀ f x w r k, a = .finish t f x w r k → S.direction x ≠ d) :
    L.Ready (s.next S a).kernel d := by
  cases a with
  | finish u f x w r k =>
      refine L.call x s.kernel r k d ha.2 (fun hd => ?_) hr
      obtain rfl := h.alone u x (by rw [ha.1]; rfl) hd
      exact hf f x w r k rfl hd
  | env e => exact L.env e s.kernel d hr
  | start u f x w => exact hr
  | resumeFuture u x w w' => exact hr
  | resumePoll u x x' w w' => exact hr
  | wouldBlock u f x w => exact hr
  | ready u f x w => exact hr
  | park u f x w => exact hr
  | cancel u f x w => exact hr
  | io a => exact hr

/-- The task waits in the state, since the first `n` events of the source's log. -/
structure Asleep (L : S.Level) (t : ℕ) (d : Direction) (w : WakerId) (n : ℕ)
    (s : NetState κ ι ρ ε) : Prop where
  attended : s.Attended S t d
  ready : L.Ready s.kernel d
  since : n ≤ s.reactor.log.length
  waits : s.reactor.Waits d w

/-- A step that is not the task's: it is woken, or the IO thread is closer to it. -/
theorem Asleep.next {w : WakerId} {n : ℕ} (h : Asleep L t d w n s) (ha : s.Enabled S a)
    (hC : s.Alone L t d a) (ht : a.task ≠ some t) :
    (s.next S a).reactor.Notified n d w ∨ Asleep L t d w n (s.next S a) ∧
      (s.next S a).reactor.rank d + (if a.IsIo then 1 else 0) ≤ s.reactor.rank d := by
  have attended := h.attended.next ha hC
  have ready : L.Ready (s.next S a).kernel d := by
    refine ready_next h.attended h.ready ha fun f x w r k e => ?_
    subst e
    exact absurd rfl ht
  -- the source is polled by another task, for the other direction
  have poll : ∀ {u f x v p l}, s.ops u = .blocked f x v → u ≠ t →
      s.next S a = (s.pollSource S x v).move u p l → ¬ a.IsIo →
      (s.next S a).reactor.Notified n d w ∨ Asleep L t d w n (s.next S a) ∧
        (s.next S a).reactor.rank d + (if a.IsIo then 1 else 0) ≤ s.reactor.rank d := by
    intro u f x v p l hu hne he hio
    have hx : S.direction x ≠ d := fun e => hne (h.attended.alone u x (by rw [hu]; rfl) e)
    obtain ⟨k, hk⟩ := s.reactor.log_next (.poll (S.direction x) v)
    obtain ⟨waits, rank⟩ := h.waits.poll h.attended.inv hx v
    have reactor : (s.next S a).reactor = s.reactor.poll (S.direction x) v := by rw [he]; rfl
    refine .inr ⟨⟨attended, ready, ?_, reactor ▸ waits⟩, ?_⟩
    · have grown := congrArg List.length hk
      rw [List.length_append] at grown
      rw [reactor, show s.reactor.poll (S.direction x) v = s.reactor.next (.poll _ _) from rfl, grown]
      exact h.since.trans (Nat.le_add_right ..)
    · rw [if_neg hio, reactor]
      exact rank
  have same : (s.next S a).reactor = s.reactor → ¬ a.IsIo →
      (s.next S a).reactor.Notified n d w ∨ Asleep L t d w n (s.next S a) ∧
        (s.next S a).reactor.rank d + (if a.IsIo then 1 else 0) ≤ s.reactor.rank d := by
    intro e hio
    refine .inr ⟨⟨attended, ready, e ▸ h.since, e ▸ h.waits⟩, ?_⟩
    rw [if_neg hio, e]
    exact Nat.le_refl _
  cases a with
  | start u f x v => exact same rfl nofun
  | resumeFuture u x v v' => exact same rfl nofun
  | resumePoll u x x' v v' => exact same rfl nofun
  | finish u f x v r k => exact same rfl nofun
  | wouldBlock u f x v => exact same rfl nofun
  | cancel u f x v => exact same rfl nofun
  | env e => exact same rfl nofun
  | ready u f x v => exact poll ha.1 (fun e => ht (congrArg some e)) rfl nofun
  | park u f x v => exact poll ha.1 (fun e => ht (congrArg some e)) rfl nofun
  | io a =>
      obtain ⟨hio, ha⟩ := ha
      obtain ⟨k, hk⟩ := s.reactor.log_next a
      have grown : n ≤ (s.reactor.next a).log.length := by
        rw [hk, List.length_append]
        exact h.since.trans (Nat.le_add_right ..)
      have notPoll : ∀ w', a ≠ .poll d w' := fun w' e => by subst e; exact hio
      have step := h.waits.next h.attended.inv h.attended.oneShot h.since ha hC.1
        (hC.2 d h.ready) notPoll
      rw [if_pos hio] at step
      rw [if_pos (show (NetAct.io a : NetAct κ ι ρ ε).IsIo from trivial)]
      exact step.imp_right fun ⟨waits, rank⟩ => ⟨⟨attended, ready, grown, waits⟩, rank⟩

variable (S t d) in
/-- The task does not give up, and polls on for the direction. -/
def Insists : NetAct κ ι ρ ε → Prop
  | .cancel u _ _ _ => u ≠ t
  | .resumePoll u _ x' _ _ => u = t → S.direction x' = d
  | _ => True

variable (S) in
/-- An operation of the task for the direction has returned, after the first `n` events. -/
def Returned (t : ℕ) (d : Direction) (n : ℕ) (s : NetState κ ι ρ ε) : Prop :=
  ∃ x r, S.direction x = d ∧ .done t x r ∈ s.log.drop n

/-- The task has found the latch set, or will. -/
structure Awake (L : S.Level) (t : ℕ) (d : Direction) (n : ℕ) (s : NetState κ ι ρ ε) : Prop where
  attended : s.Attended S t d
  ready : L.Ready s.kernel d
  since : n ≤ s.log.length
  request : ∃ x, (s.ops t).request = some x ∧ S.direction x = d
  latch : s.reactor.source.ready d = true ∨ ∃ f x w, s.ops t = .trying f x w

/-- The latch of the direction stays set through the steps of the others. -/
theorem latch_next (h : s.Attended S t d) (ha : s.Enabled S a) (ht : a.task ≠ some t)
    (hl : s.reactor.source.ready d = true) : (s.next S a).reactor.source.ready d = true := by
  have poll : ∀ {u f x v}, s.ops u = .blocked f x v → u ≠ t →
      (s.reactor.poll (S.direction x) v).source.ready d = true := by
    intro u f x v hu hne
    rw [ReactorState.ready_poll_of_ne fun e => hne (h.alone u x (by rw [hu]; rfl) e)]
    exact hl
  cases a with
  | ready u f x v => exact poll ha.1 fun e => ht (congrArg some e)
  | park u f x v => exact poll ha.1 fun e => ht (congrArg some e)
  | io a =>
      cases hc : a.callback with
      | none =>
          simp only [next, ReactorState.source_next s.reactor ha.1 hc]
          exact hl
      | some d' =>
          obtain ⟨c, cs, rfl⟩ : ∃ c cs, a = .call c cs := by
            cases a <;> simp_all [SourceAct.callback]
          simp only [next, ReactorState.next, ReactorState.ready_call, Function.update_apply]
          split
          · rfl
          · exact hl
  | _ => exact hl

/-- No other task moves this one. -/
theorem ops_next (ht : a.task ≠ some t) : (s.next S a).ops t = s.ops t := by
  have other : ∀ u : ℕ, some u ≠ some t → ∀ p, Function.update s.ops u p t = s.ops t :=
    fun u hu p => Function.update_of_ne (fun e => hu (congrArg some e.symm)) ..
  cases a with
  | env e => rfl
  | io a => rfl
  | _ => exact other _ ht _

theorem log_next (s : NetState κ ι ρ ε) (a : NetAct κ ι ρ ε) :
    ∃ k, (s.next S a).log = s.log ++ k := by
  cases a <;> exact ⟨_, rfl⟩

/-- The steps of the task before the call that returns. -/
def turns : NetPhase ι → ℕ
  | .suspended .future _ _ => 2
  | .suspended .poll _ _ | .blocked _ _ _ => 1
  | .trying _ _ _ | .idle => 0

theorem Awake.next {n : ℕ} (h : Awake L t d n s) (ha : s.Enabled S a) (hC : s.Alone L t d a)
    (hI : Insists S t d a) :
    Returned S t d n (s.next S a) ∨ Awake L t d n (s.next S a) ∧
      turns ((s.next S a).ops t) + (if a.task = some t then 1 else 0) ≤ turns (s.ops t) := by
  obtain ⟨k, hk⟩ := log_next (S := S) s a
  have since : n ≤ (s.next S a).log.length := by
    rw [hk, List.length_append]
    exact h.since.trans (Nat.le_add_right ..)
  have attended := h.attended.next ha hC
  obtain ⟨x₀, hreq, hx₀⟩ := h.request
  by_cases ht : a.task = some t
  · -- the task's own step
    have kept : (∀ f x w r k, a ≠ .finish t f x w r k) → L.Ready (s.next S a).kernel d :=
      fun hf => ready_next h.attended h.ready ha fun f x w r k e => absurd e (hf f x w r k)
    rw [if_pos ht]
    cases a with
    | start u f x w =>
        cases ht
        rw [show s.ops t = _ from ha] at hreq
        cases hreq
    | resumeFuture u x w w' =>
        cases ht
        have ho : s.ops t = .suspended .future x w := ha
        have latch := h.latch.resolve_right fun htry => by
          obtain ⟨f, y, v, e⟩ := htry
          rw [ho] at e
          cases e
        rw [ho] at hreq
        cases hreq
        have ho' : (s.next S (.resumeFuture t x₀ w w')).ops t = .blocked .future x₀ w' :=
          Function.update_self ..
        refine .inr ⟨⟨attended, kept fun f x w r k e => (by cases e), since, ⟨x₀, by rw [ho']; rfl, hx₀⟩, .inl latch⟩, ?_⟩
        rw [ho', ho]
        exact Nat.le_refl _
    | resumePoll u x x' w w' =>
        cases ht
        have ho : s.ops t = .suspended .poll x w := ha
        have ho' : (s.next S (.resumePoll t x x' w w')).ops t = .trying .poll x' w' :=
          Function.update_self ..
        refine .inr ⟨⟨attended, kept fun f x w r k e => (by cases e), since, ⟨x', by rw [ho']; rfl, hI rfl⟩,
          .inr ⟨_, _, _, ho'⟩⟩, ?_⟩
        rw [ho', ho]
        exact Nat.le_refl _
    | finish u f x w r k' =>
        cases ht
        rw [ha.1] at hreq
        cases hreq
        refine .inl ⟨x₀, r, hx₀, ?_⟩
        simp only [NetState.next, move, List.drop_append_of_le_length h.since]
        exact List.mem_append_right _ List.mem_cons_self
    | wouldBlock u f x w =>
        cases ht
        rw [ha.1] at hreq
        cases hreq
        exact absurd ha.2 (L.call_ne_none x₀ s.kernel (hx₀ ▸ h.ready))
    | ready u f x w =>
        cases ht
        rw [ha.1] at hreq
        cases hreq
        have ho' : (s.next S (.ready t f x₀ w)).ops t = .trying f x₀ w := Function.update_self ..
        refine .inr ⟨⟨attended, kept fun f x w r k e => (by cases e), since, ⟨x₀, by rw [ho']; rfl, hx₀⟩,
          .inr ⟨_, _, _, ho'⟩⟩, ?_⟩
        rw [ho', ha.1]
        exact Nat.le_refl _
    | park u f x w =>
        cases ht
        have latch := h.latch.resolve_right fun htry => by
          obtain ⟨g, y, v, e⟩ := htry
          rw [ha.1] at e
          cases e
        rw [ha.1] at hreq
        cases hreq
        have unset := ha.2
        rw [hx₀, latch] at unset
        cases unset
    | cancel u f x w =>
        cases ht
        exact absurd rfl hI
    | env e => cases ht
    | io a => cases ht
  · have same := ops_next (S := S) (s := s) ht
    have ready : L.Ready (s.next S a).kernel d :=
      ready_next h.attended h.ready ha fun f x w r k e => by subst e; exact absurd rfl ht
    rw [if_neg ht, same]
    refine .inr ⟨⟨attended, ready, since, same.symm ▸ h.request, ?_⟩, Nat.le_refl _⟩
    exact h.latch.imp (latch_next h.attended ha ht) fun htry => same.symm ▸ htry

/-- **A waiting operation is served.**  Registrations succeed, a dispatch reports what the descriptor
is ready for, and the operations of the direction are one task's; other tasks use the other
direction as they like.  When the task waits and the descriptor is ready for it, then

* the latch is set already, or the IO thread can take a step;
* in every run in which the task only waits, once the IO thread has taken more steps than the arm
  tasks queued and the calls to be made allow for, the latch has been set, and the waker of the
  task's poll was invoked if it was still stored;
* in every run from a state with the latch set, the third step of the task at the latest is the
  return of its operation. -/
theorem waiting_operation_served {f : OpForm} {x : ι} {w : WakerId}
    (h : (netMachine S k₀).ReachableBy (Alone L t d) s) (hs : s.ops t = .suspended f x w)
    (hx : S.direction x = d) (hr : L.Ready s.kernel d) :
    (s.reactor.source.ready d = true ∨ ∃ a, s.Enabled S (.io a) ∧ s.Alone L t d (.io a)) ∧
      (∀ as, (netMachine S k₀).Follows (fun s a => s.Alone L t d a ∧ a.task ≠ some t) s as →
        7 * s.reactor.armTasks.length + 4 * s.reactor.phase.calls.length + 14 <
          as.countP (·.IsIo) →
        ∃ l₁ l₂, as = l₁ ++ l₂ ∧
          let s' := (netMachine S k₀).runList s l₁
          s'.ops t = .suspended f x w ∧ L.Ready s'.kernel d ∧
            s'.reactor.source.ready d = true ∧
            (s.reactor.source.waker d = some w →
              .woke d w ∈ s'.reactor.log.drop s.reactor.log.length)) ∧
      (s.reactor.source.ready d = true → ∀ as,
        (netMachine S k₀).Follows (fun s a => s.Alone L t d a ∧ Insists S t d a) s as →
        2 < as.countP (·.task = some t) →
        ∃ l₁ l₂, as = l₁ ++ l₂ ∧
          Returned S t d s.log.length ((netMachine S k₀).runList s l₁)) := by
  have attended := attended_of_reachable h
  have waiting := attended.waiting f x w hs hx
  refine ⟨?_, fun as hf hn => ?_, fun hl as hf hn => ?_⟩
  · rcases waiting with hw | ⟨-, hl⟩
    · obtain ⟨a, hio, hreg, hrep, ha⟩ := ReactorState.Waits.exists_io attended.inv (.inl hw)
      exact .inr ⟨a, ⟨hio, ha⟩, hreg, fun d' _ => hrep d'⟩
    · exact .inl hl
  · rcases waiting with hw | ⟨hnone, hl⟩
    · have asleep : Asleep L t d w s.reactor.log.length s := ⟨attended, hr, Nat.le_refl _, .inl hw⟩
      obtain ⟨l₁, l₂, e, ⟨-, hl, hwoke⟩, ho, hready⟩ := hf.exists_of_rank
        (W := NetAct.IsIo) (fun s' => s'.reactor.rank d)
        (P := fun s' => Asleep L t d w s.reactor.log.length s' ∧ s'.ops t = .suspended f x w)
        (Q := fun s' => s'.reactor.Notified s.reactor.log.length d w ∧
          s'.ops t = .suspended f x w ∧ L.Ready s'.kernel d)
        (fun s' a ⟨hP, ho⟩ ⟨hC, ht⟩ ha => by
          have ho' : (s'.next S a).ops t = .suspended f x w := (ops_next ht).trans ho
          have hready : L.Ready (s'.next S a).kernel d :=
            ready_next hP.attended hP.ready ha fun f x w r k e => by
              subst e; exact absurd rfl ht
          exact (hP.next ha hC ht).imp (fun hq => ⟨hq, ho', hready⟩)
            fun ⟨hp, hrank⟩ => ⟨⟨hp, ho'⟩, hrank⟩)
        ⟨asleep, hs⟩ (Nat.lt_of_le_of_lt (s.reactor.rank_le d) hn)
      exact ⟨l₁, l₂, e, ho, hready, hl, fun _ => hwoke⟩
    · exact ⟨[], as, rfl, hs, hr, hl, fun hw => by rw [hnone] at hw; cases hw⟩
  · have awake : Awake L t d s.log.length s :=
      ⟨attended, hr, Nat.le_refl _, ⟨x, by rw [hs]; rfl, hx⟩, .inl hl⟩
    have bound : turns (s.ops t) ≤ 2 := by
      rw [hs]
      cases f
      · exact Nat.le_refl 2
      · exact Nat.le_succ 1
    exact hf.exists_of_rank (W := fun a => a.task = some t) (fun s' => turns (s'.ops t))
      (P := Awake L t d s.log.length) (fun s' a hP hC ha => hP.next ha hC.1 hC.2) awake
      (Nat.lt_of_le_of_lt bound hn)

end NetState

end Task

section Decidable

variable {κ ι ρ ε : Type*} {S : Socket κ ι ρ ε}

instance Direction.decidableForall (p : Direction → Prop) [DecidablePred p] :
    Decidable (∀ d, p d) :=
  decidable_of_iff (p .read ∧ p .write)
    ⟨fun h d => by cases d with | read => exact h.1 | write => exact h.2, fun h => ⟨h _, h _⟩⟩

instance ReactorState.decidableReports (s : ReactorState) (d : Direction) :
    ∀ a, Decidable (s.Reports d a)
  | .dispatch _ => inferInstanceAs (Decidable (∀ e ∈ s.table.watches s.fd, _ → _))
  | .poll _ _ | .arm _ _ _ | .call _ _ | .wake _ _ _ | .dispatchDone =>
      inferInstanceAs (Decidable True)

instance NetState.decidableAlone (L : S.Level) [∀ k d, Decidable (L.Ready k d)] (t : ℕ)
    (d : Direction) (s : NetState κ ι ρ ε) : ∀ a, Decidable (s.Alone L t d a)
  | .io a => inferInstanceAs (Decidable (a.Registers ∧ ∀ d', _ → s.reactor.Reports d' a))
  | .start u _ x _ => inferInstanceAs (Decidable (S.direction x = d → u = t))
  | .resumePoll u _ x' _ _ => inferInstanceAs (Decidable (S.direction x' = d → u = t))
  | .resumeFuture _ _ _ _ | .finish _ _ _ _ _ _ | .wouldBlock _ _ _ _ | .ready _ _ _ _
  | .park _ _ _ _ | .cancel _ _ _ _ | .env _ => inferInstanceAs (Decidable True)

instance TcpKernel.decidableReady (k : TcpKernel) : ∀ d, Decidable (TcpKernel.level.Ready k d)
  | .read | .write => inferInstanceAs (Decidable (_ ∨ _))

end Decidable

namespace NetState

abbrev TcpAct := NetAct TcpKernel TcpCall (Except IoError Bytes) TcpPeer

/-- A write and a read wait; the arm task of the write does not ask for the read.  Then a byte
arrives. -/
def duplexStart : List TcpAct :=
  [.start 2 .future (.write [7]) 2, .wouldBlock 2 .future (.write [7]) 2,
    .park 2 .future (.write [7]) 2, .start 1 .future (.read 4) 1, .wouldBlock 1 .future (.read 4) 1,
    .park 1 .future (.read 4) 1, .env (.send [10])]

/-- The call and the wake-up of the write, which then sends its byte; the next one waits. -/
def writeOnce (g : ℕ) : List TcpAct :=
  [.io (.call ⟨5, 1, g, .write⟩ []), .io (.wake .write (some 2) []), .io .dispatchDone,
    .resumeFuture 2 (.write [7]) 2 2, .ready 2 .future (.write [7]) 2,
    .finish 2 .future (.write [7]) 2 (.ok [7]) ⟨[10], [10], false, 0, false, none, false, 0⟩,
    .start 2 .future (.write [7]) 2, .wouldBlock 2 .future (.write [7]) 2,
    .park 2 .future (.write [7]) 2]

/-- There is room for a byte: the write is dispatched alone, and after the arm tasks that were posted
in the meantime with the read. -/
def duplexRun : List TcpAct :=
  [[.io (.arm .write [.readWrite] true), .env (.drain 1), .io (.dispatch epollOut)], writeOnce 0,
    [.io (.arm .readWrite [.read, .readWrite] true), .io (.arm .read [.readWrite] true),
      .io (.arm .readWrite [] true), .env (.drain 1), .io (.dispatch (epollIn ||| epollOut)),
      .io (.call ⟨5, 1, 3, .read⟩ [⟨5, 1, 3, .write⟩]),
      .io (.wake .read (some 1) [⟨5, 1, 3, .write⟩])],
    writeOnce 3, [.io (.arm .write [.write] true)]].flatten ++
  [5, 6, 7].flatMap fun g =>
    [.io (.arm .write [] true), .env (.drain 1), .io (.dispatch epollOut)] ++ writeOnce g

/-- The state in which the read waits and can be served. -/
def duplexState : NetState TcpKernel TcpCall (Except IoError Bytes) TcpPeer :=
  (netMachine tcpStream (.new 0)).runList (.init (.init 5 1 .new) (.new 0)) duplexStart

/-- The run is long enough, so the latch of the read is set in it, and the read was woken. -/
theorem duplexRun_served :
    ∃ l₁ l₂, duplexRun = l₁ ++ l₂ ∧
      let s := (netMachine tcpStream (.new 0)).runList duplexState l₁
      s.reactor.source.ready .read = true ∧ .woke .read 1 ∈ s.reactor.log.drop 2 := by
  have reached : (netMachine tcpStream (.new 0)).ReachableBy (Alone TcpKernel.level 1 .read)
      duplexState :=
    .of_follows ⟨_, ⟨5, 1, .new, rfl, rfl⟩, rfl⟩ (by decide +kernel)
  have waits : duplexState.ops 1 = .suspended .future (.read 4) 1 := by decide +kernel
  have ready : TcpKernel.level.Ready duplexState.kernel .read := by decide +kernel
  obtain ⟨-, woken, -⟩ := waiting_operation_served reached waits rfl ready
  obtain ⟨l₁, l₂, e, -, -, hl, hwoke⟩ := woken duplexRun (by decide +kernel) (by decide +kernel)
  exact ⟨l₁, l₂, e, hl, hwoke (by decide +kernel)⟩

end NetState

end RustAsync
