import RustBase.Async.Source

/-!
# Async — parked tasks

`armed` says what the source has asked for, not what the pump watches: arm tasks run later and in
order, and a one-shot entry is gone when it has fired.

* `Inv`: `armed` is always the mode of the directions waited on.  Unless a dispatch has consumed the
  entry and not yet made its first call, that is the mode of the last arm task queued, or of the
  entry when none is queued: whoever changes `armed` posts its new value, and the first call of a
  dispatch posts whatever is still waited on.
* `Owed`: from the moment a dispatch reports a direction until the waker stored for it is woken.
-/

namespace RustAsync
open Support RustIo

/-- No dispatch has yet to make its calls. -/
def SourcePhase.settled : SourcePhase → Bool
  | .calling (_ :: _) => false
  | .idle | .calling [] | .waking _ _ _ => true

/-- The last arm task posted is for what the source is armed for, unless none was posted. -/
theorem SourceState.getLast?_updateArm (x : SourceState) (tasks : List WatchMode) {m : WatchMode}
    (h : x.updateArm.1.armed = some m) :
    (tasks ++ x.updateArm.2.toList).getLast? = some m ∨
      x.updateArm.2 = none ∧ x.armed = some m := by
  rcases x.mode_updateArm with ⟨hn, ha⟩ | hm
  · exact .inr ⟨hn, ha ▸ h⟩
  · rw [hm, h]
    exact .inl (by simp)

namespace ReactorState

variable {s s' : ReactorState} {d : Direction} {w : WakerId}

/-- The last arm task queued, or the pump's entry when there is none, asks for the direction. -/
def Armed (s : ReactorState) (d : Direction) : Prop :=
  (∃ m, s.armTasks.getLast? = some m ∧ m.covers d = true) ∨
    s.armTasks = [] ∧ ∃ e ∈ s.table.watches s.fd, e.watcher = s.id ∧ e.mode.covers d = true

/-! ### The invariant -/

/-- The last arm task queued, or the pump's entry when there is none, is for what the source is
armed for. -/
def Posted (s : ReactorState) : Prop :=
  ∀ m, s.source.armed = some m → s.armTasks.getLast? = some m ∨
    s.armTasks = [] ∧ ∃ e ∈ s.table.watches s.fd, e.watcher = s.id ∧ e.mode = m

structure Inv (s : ReactorState) : Prop where
  armed : s.source.armed = s.source.desired
  posted : s.phase.settled = true → s.Posted

namespace Inv

theorem init (fd : Fd) (id : WatcherId) (table : WatchTable) : Inv (.init fd id table) where
  armed := rfl
  posted _ m hm := by cases hm

/-- `update_arm` ends a critical section. -/
theorem armed_of_updateArm (x : SourceState) : x.updateArm.1.armed = x.updateArm.1.desired :=
  x.armed_updateArm.trans (SourceState.desired_congr x.waker_updateArm.symm)

theorem poll (h : Inv s) (d : Direction) (w : WakerId) : Inv (s.poll d w) := by
  cases hd : s.source.ready d with
  | true =>
      rw [poll_of_ready w hd]
      have same : (s.source.setReady d false).armed = s.source.armed := by cases d <;> rfl
      refine ⟨?_, fun hs m hm => h.posted hs m (same ▸ hm)⟩
      have desired := SourceState.desired_congr (SourceState.waker_setReady s.source d false)
      exact (same.trans h.armed).trans desired.symm
  | false =>
      rw [poll_of_not_ready w hd]
      refine ⟨armed_of_updateArm _, fun hs m hm => ?_⟩
      rcases SourceState.getLast?_updateArm _ s.armTasks hm with hl | ⟨hn, ha⟩
      · exact .inl hl
      · -- nothing was posted, and `armed` is what it was
        have ha' : s.source.armed = some m := by cases d <;> exact ha
        simp only [hn, Option.toList_none, List.append_nil]
        exact h.posted hs m ha'

theorem arm (h : Inv s) {mode : WatchMode} {rest : List WatchMode} (hi : s.phase = .idle)
    (ht : s.armTasks = mode :: rest) : Inv (s.arm mode rest true) := by
  refine ⟨h.armed, fun hs m hm => ?_⟩
  have last : s.armTasks.getLast? = some m := by
    rcases h.posted (by rw [hi]; rfl) m hm with hl | ⟨hn, -⟩
    · exact hl
    · rw [hn] at ht; cases ht
  rw [ht] at last
  cases rest with
  | nil =>
      cases last
      obtain ⟨g, hg⟩ := FdWatchController.watches_watch s.controller s.table s.fd false mode s.id
      exact .inr ⟨rfl, _, hg, rfl, rfl⟩
  | cons m' rest => exact .inl (by rwa [List.getLast?_cons_cons] at last)

theorem of_call (s : ReactorState) (c : Call) (cs : List Call) : Inv (s.call c cs) := by
  refine ⟨armed_of_updateArm _, fun _ m hm => ?_⟩
  -- `armed` was reset, so whatever is still waited on is posted
  rcases SourceState.getLast?_updateArm _ s.armTasks hm with hl | ⟨-, ha⟩
  · exact .inl hl
  · cases hd : c.direction <;> rw [hd] at ha <;> cases ha

/-- The calls of an event that meets the mode of the entry. -/
theorem calls_ne_nil (fd : Fd) {flags : UInt32} {e : WatchEntry} (h : meets flags e.mode = true) :
    calls fd flags e ≠ [] := by
  obtain ⟨d, hd⟩ := meets_iff.mp h
  exact List.ne_nil_of_mem (mem_calls.mpr ⟨rfl, rfl, rfl, hd⟩ :
    (⟨fd, e.watcher, e.generation, d⟩ : Call) ∈ calls fd flags e)

theorem dispatch (h : Inv s) {flags : UInt32} {e : WatchEntry}
    (he : s.table.watches s.fd = some e) (hm : meets flags e.mode = true) :
    Inv (s.dispatch flags) := by
  simp only [ReactorState.dispatch, he]
  refine ⟨h.armed, fun hs => ?_⟩
  obtain ⟨c, cs, hcs⟩ := List.exists_cons_of_ne_nil (calls_ne_nil s.fd hm)
  rw [hcs] at hs
  cases hs

theorem next (h : Inv s) {a : SourceAct} (ha : s.Enabled a) (hr : a.Registers) :
    Inv (s.next a) := by
  cases a with
  | poll d w => exact h.poll d w
  | arm mode rest ok =>
      obtain rfl : ok = true := hr
      exact h.arm ha.1 ha.2
  | dispatch flags =>
      obtain ⟨-, e, he, hm⟩ := ha
      exact h.dispatch he hm
  | call c cs => exact of_call s c cs
  | wake d w cs => exact ⟨h.armed, fun _ => h.posted (by rw [show s.phase = _ from ha]; rfl)⟩
  | dispatchDone => exact ⟨h.armed, fun _ => h.posted (by rw [show s.phase = _ from ha]; rfl)⟩

theorem armed_of_waker (h : Inv s) (hi : s.phase = .idle) (hw : (s.source.waker d).isSome) :
    s.Armed d := by
  obtain ⟨m, hm, hc⟩ := SourceState.covers_desired hw
  rw [← h.armed] at hm
  rcases h.posted (by rw [hi]; rfl) m hm with hl | ⟨hn, e, he, hid, rfl⟩
  · exact .inl ⟨m, hl, hc⟩
  · exact .inr ⟨hn, e, he, hid, hc⟩

end Inv

/-! ### Wake-ups -/

/-- After `s`, the waker stored for the direction was woken: the one stored in `s`, or one that a
poll has put in its place since. -/
def Woken (s : ReactorState) (d : Direction) (w : WakerId) (s' : ReactorState) : Prop :=
  ∃ l, s'.log = s.log ++ l ∧ ∃ w', .woke d w' ∈ l ∧ (w' = w ∨ .parked d w' ∈ l)

/-- The waker stored for the direction was woken, or it still is to be: its call is one of those to
be made, or has been made and taken it. -/
def Owed (s : ReactorState) (d : Direction) (w : WakerId) (s' : ReactorState) : Prop :=
  ∃ l, s'.log = s.log ++ l ∧ ∃ w', (w' = w ∨ .parked d w' ∈ l) ∧
    (.woke d w' ∈ l ∨ (∃ cs, s'.phase = .waking d (some w') cs) ∨
      s'.source.waker d = some w' ∧ ∃ c ∈ s'.phase.calls, c.direction = d)

theorem Owed.woken (h : Owed s d w s') (hi : s'.phase = .idle) : Woken s d w s' := by
  obtain ⟨l, hl, w', hw, hwoke | ⟨cs, hp⟩ | ⟨-, c, hc, -⟩⟩ := h
  · exact ⟨l, hl, w', hwoke, hw⟩
  · rw [hi] at hp; cases hp
  · rw [hi] at hc; cases hc

/-- Between the call of the direction and its wake-up only polls come. -/
theorem Owed.next_of_waking {l : List SourceEvent} {w' : WakerId} {cs : List Call}
    (hl : s'.log = s.log ++ l) (hw : w' = w ∨ .parked d w' ∈ l)
    (hp : s'.phase = .waking d (some w') cs) {a : SourceAct} (ha : s'.Enabled a) :
    Owed s d w (s'.next a) := by
  obtain ⟨k, hk⟩ := log_next s' a
  refine ⟨l ++ k, by rw [hk, hl, List.append_assoc], w', hw.imp_right (List.mem_append_left k), ?_⟩
  cases a with
  | poll d' v => exact .inr (.inl ⟨cs, hp⟩)
  | wake d' v cs' =>
      rw [show s'.phase = _ from ha] at hp
      cases hp
      have hk' : k = [.woke d w'] := (List.append_cancel_left hk).symm
      exact .inl (by simp [hk'])
  | arm mode rest ok => rw [ha.1] at hp; cases hp
  | dispatch flags => rw [ha.1] at hp; cases hp
  | call c cs' => rw [show s'.phase = _ from ha] at hp; cases hp
  | dispatchDone => rw [show s'.phase = _ from ha] at hp; cases hp

/-- Before the call of the direction a poll may replace the waker. -/
theorem Owed.next_of_stored {l : List SourceEvent} {w' : WakerId} {c : Call}
    (hl : s'.log = s.log ++ l) (hw : w' = w ∨ .parked d w' ∈ l)
    (hs : s'.source.waker d = some w') (hc : c ∈ s'.phase.calls) (hcd : c.direction = d)
    {a : SourceAct} (ha : s'.Enabled a) : Owed s d w (s'.next a) := by
  obtain ⟨k, hk⟩ := log_next s' a
  have hlog : (s'.next a).log = s.log ++ (l ++ k) := by rw [hk, hl, List.append_assoc]
  have hw' := hw.imp_right (List.mem_append_left k)
  cases a with
  | poll d' v =>
      rcases poll_cases s' d' v with ⟨-, hv⟩ | ⟨hlv, hv⟩
      · exact ⟨_, hlog, w', hw', .inr (.inr ⟨by rw [next, hv, hs], c, hc, hcd⟩)⟩
      · by_cases hd : d = d'
        · subst hd
          have hk' : k = [.parked d v] := (List.append_cancel_left (hlv.symm.trans hk)).symm
          refine ⟨_, hlog, v, .inr (by simp [hk']), .inr (.inr ⟨?_, c, hc, hcd⟩)⟩
          rw [next, hv, Function.update_self]
        · refine ⟨_, hlog, w', hw', .inr (.inr ⟨?_, c, hc, hcd⟩)⟩
          rw [next, hv, Function.update_of_ne hd, hs]
  | call c' cs =>
      rw [show s'.phase = _ from ha] at hc
      refine ⟨_, hlog, w', hw', .inr ?_⟩
      by_cases hd : d = c'.direction
      · -- the call takes the waker
        subst hd
        refine .inl ⟨cs, ?_⟩
        rw [← hs]
        rfl
      · refine .inr ⟨?_, c, ?_, hcd⟩
        · rw [next, waker_call, Function.update_of_ne hd, hs]
        · exact (List.mem_cons.mp hc).resolve_left fun e => hd (by rw [← hcd, e])
  | wake d' v cs =>
      rw [show s'.phase = _ from ha] at hc
      exact ⟨_, hlog, w', hw', .inr (.inr ⟨hs, c, hc, hcd⟩)⟩
  | arm mode rest ok => rw [ha.1] at hc; cases hc
  | dispatch flags => rw [ha.1] at hc; cases hc
  | dispatchDone => rw [show s'.phase = _ from ha] at hc; cases hc

theorem Owed.next (h : Owed s d w s') {a : SourceAct} (ha : s'.Enabled a) :
    Owed s d w (s'.next a) := by
  obtain ⟨l, hl, w', hw, hwoke | ⟨cs, hp⟩ | ⟨hs, c, hc, hcd⟩⟩ := h
  · obtain ⟨k, hk⟩ := log_next s' a
    exact ⟨l ++ k, by rw [hk, hl, List.append_assoc], w', hw.imp_right (List.mem_append_left k),
      .inl (List.mem_append_left k hwoke)⟩
  · exact next_of_waking hl hw hp ha
  · exact next_of_stored hl hw hs hc hcd ha

/-- A dispatch that reports a direction owes a wake-up to the waker stored for it. -/
theorem owed_dispatch {flags : UInt32} {e : WatchEntry} (he : s.table.watches s.fd = some e)
    (hd : canDo flags e.mode d = true) (hw : s.source.waker d = some w) :
    Owed s d w (s.dispatch flags) := by
  have hc : (⟨s.fd, e.watcher, e.generation, d⟩ : Call) ∈ calls s.fd flags e :=
    mem_calls.mpr ⟨rfl, rfl, rfl, hd⟩
  simp only [dispatch, he]
  exact ⟨[], (List.append_nil _).symm, w, .inl rfl, .inr (.inr ⟨hw, _, hc, rfl⟩)⟩

theorem run_of_enabled {a : SourceAct} (ha : s.Enabled a) (hd : a.InDispatch) :
    sourceMachine.Run (fun _ a => a.InDispatch) s (s.next a) :=
  .more .refl hd ha

/-- A dispatch comes to its end. -/
theorem exists_run_idle (s : ReactorState) :
    ∃ s', sourceMachine.Run (fun _ a => a.InDispatch) s s' ∧ s'.phase = .idle := by
  have calling : ∀ (cs : List Call) (s : ReactorState), s.phase = .calling cs →
      ∃ s', sourceMachine.Run (fun _ a => a.InDispatch) s s' ∧ s'.phase = .idle := by
    intro cs
    induction cs with
    | nil =>
        intro s hp
        exact ⟨_, run_of_enabled (a := .dispatchDone) hp trivial, rfl⟩
    | cons c cs ih =>
        intro s hp
        have called := run_of_enabled (s := s) (a := .call c cs) hp trivial
        have woke := run_of_enabled (s := s.call c cs)
          (a := .wake c.direction (s.source.waker c.direction) cs) rfl trivial
        obtain ⟨s', hr, hi⟩ := ih (next _ (.wake ..)) rfl
        exact ⟨s', (called.trans woke).trans hr, hi⟩
  cases hp : s.phase with
  | idle => exact ⟨s, .refl, hp⟩
  | calling cs => exact calling cs s hp
  | waking d w cs =>
      obtain ⟨s', hr, hi⟩ := calling cs (s.next (.wake d w cs)) rfl
      exact ⟨s', (run_of_enabled (a := .wake d w cs) hp trivial).trans hr, hi⟩

/-! ### Results -/

/-- **No parked task is stranded.**  When no dispatch is in progress, each direction whose waker is
stored is asked for by the last arm task queued, or by the pump's entry if none is queued; and a
dispatch that reports a direction comes to its end, and has then woken the waker stored for it. -/
theorem parked_task_not_stranded (h : sourceMachine.ReachableBy (fun _ a => a.Registers) s)
    (hi : s.phase = .idle) :
    (∀ d, (s.source.waker d).isSome → s.Armed d) ∧
      ∀ flags, ∀ e ∈ s.table.watches s.fd, ∀ d w, canDo flags e.mode d = true →
        s.source.waker d = some w →
          (∃ s', sourceMachine.Run (fun _ a => a.InDispatch) (s.next (.dispatch flags)) s' ∧
            s'.phase = .idle) ∧
          ∀ s', sourceMachine.Run (fun _ _ => True) (s.next (.dispatch flags)) s' →
            s'.phase = .idle → Woken s d w s' := by
  have inv : Inv s := by
    refine h.invariant ?_ fun s a _ hs hr ha => hs.next ha hr
    rintro s ⟨fd, id, table, -, rfl⟩
    exact .init fd id table
  refine ⟨fun d hw => inv.armed_of_waker hi hw, fun flags e he d w hd hw => ?_⟩
  refine ⟨exists_run_idle _, fun s' hr hi' => ?_⟩
  have owed : Owed s d w s' := hr.keeps (fun _ _ h ha => h.next ha) (owed_dispatch he hd hw)
  exact owed.woken hi'

/-- A reader and a writer wait; the entry of the reader's arm task fires before that of both is
registered; the reader is polled, finds the latch, and waits again. -/
def duplexRun : List SourceAct :=
  [.poll .read 1, .poll .write 2, .arm .read [.readWrite] true, .dispatch epollIn,
    .call ⟨5, 1, 0, .read⟩ [], .poll .read 3, .wake .read (some 1) [], .dispatchDone, .poll .read 3,
    .arm .readWrite [.write, .readWrite] true, .arm .write [.readWrite] true,
    .arm .readWrite [] true]

/-- At its end both directions are watched, and an error wakes both. -/
theorem duplexRun_not_stranded :
    let s := sourceMachine.runList (.init 5 1 .new) duplexRun
    s.Armed .read ∧ s.Armed .write ∧
      ∀ s', sourceMachine.Run (fun _ _ => True) (s.next (.dispatch epollHup)) s' →
        s'.phase = .idle → Woken s .read 3 s' ∧ Woken s .write 2 s' := by
  have reached : sourceMachine.ReachableBy (fun _ a => a.Registers)
      (sourceMachine.runList (.init 5 1 .new) duplexRun) :=
    .of_follows ⟨5, 1, .new, rfl, rfl⟩ (by decide +kernel)
  have entry : (sourceMachine.runList (.init 5 1 .new) duplexRun).table.watches 5 =
      some ⟨1, false, .readWrite, 3⟩ := by decide +kernel
  obtain ⟨armed, woken⟩ := parked_task_not_stranded reached (by decide +kernel)
  refine ⟨armed .read (by decide +kernel), armed .write (by decide +kernel), ?_⟩
  intro s' hr hi
  constructor
  · exact (woken epollHup _ entry .read 3 (by decide) (by decide +kernel)).2 s' hr hi
  · exact (woken epollHup _ entry .write 2 (by decide) (by decide +kernel)).2 s' hr hi

end ReactorState

end RustAsync
