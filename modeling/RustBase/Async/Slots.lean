import RustBase.Async.Source

/-!
# Async — one slot for each direction

A source keeps one waker for each direction, and a poll that finds the direction not ready stores
its own in place of whatever is there.  Which tasks the wakers belong to is up to the executor: here
it is any function `task`.

`Kept task s`: every waker that a pending poll stored is still in its slot, or has been taken by the
call of its direction and is about to be invoked, or was invoked since, or was replaced by a later
poll of its own task.  The one step that ends this is a poll of another task that finds the waker in
the slot (`Forgets`); every other step keeps it (`kept_next_iff`).
-/

namespace RustAsync
open Support RustIo

namespace ReactorState

variable {τ : Type*} {task : WakerId → τ} {s : ReactorState} {d : Direction} {w : WakerId}

/-- After the poll at `i` of the log, which stored `w`, that waker was invoked, or its task stored
one in its place. -/
def Answered (task : WakerId → τ) (s : ReactorState) (i : ℕ) (d : Direction) (w : WakerId) : Prop :=
  ∃ j, i < j ∧ (s.log[j]? = some (.woke d w) ∨
    ∃ w', s.log[j]? = some (.parked d w') ∧ task w' = task w)

/-- `w` has been taken out of its slot and is about to be invoked. -/
def Waking (s : ReactorState) (d : Direction) (w : WakerId) : Prop :=
  ∃ cs, s.phase = .waking d (some w) cs

/-- No waker stored by a pending poll is forgotten. -/
def Kept (task : WakerId → τ) (s : ReactorState) : Prop :=
  ∀ (i : ℕ) d w, s.log[i]? = some (.parked d w) →
    s.source.waker d = some w ∨ s.Waking d w ∨ s.Answered task i d w

/-- The poll stores its waker over one of another task that nobody has invoked, or is about to. -/
def Forgets (task : WakerId → τ) (s : ReactorState) : SourceAct → Prop
  | .poll d w' => s.source.ready d = false ∧ ∃ w, s.source.waker d = some w ∧ task w' ≠ task w ∧
      ¬ s.Waking d w ∧ ∃ i : ℕ, s.log[i]? = some (.parked d w) ∧ ¬ s.Answered task i d w
  | _ => False

theorem kept_init (fd : Fd) (id : WatcherId) (table : WatchTable) :
    Kept task (.init fd id table) := by
  intro i d w h
  cases h

/-- An answer stays in the log. -/
theorem Answered.mono {s' : ReactorState} {k : List SourceEvent} {i : ℕ}
    (h : Answered task s i d w) (hk : s'.log = s.log ++ k) : Answered task s' i d w := by
  obtain ⟨j, hij, hj⟩ := h
  have old : ∀ {e}, s.log[j]? = some e → s'.log[j]? = some e := fun {e} he => by
    rw [hk, List.getElem?_append_left (List.getElem?_eq_some_iff.mp he).1, he]
  exact ⟨j, hij, hj.imp old fun ⟨w', hw', ht⟩ => ⟨w', old hw', ht⟩⟩

/-- A step that adds no event. -/
theorem Kept.silent {s' : ReactorState} (h : Kept task s) (hl : s'.log = s.log)
    (hs : ∀ d w, s.source.waker d = some w → s'.source.waker d = some w ∨ s'.Waking d w)
    (hp : ∀ d w, s.Waking d w → s'.Waking d w) : Kept task s' := by
  intro i d w hi
  rcases h i d w (hl ▸ hi) with hw | hw | ha
  · exact (hs d w hw).imp_right .inl
  · exact .inr (.inl (hp d w hw))
  · exact .inr (.inr (ha.mono (k := []) (by rw [hl, List.append_nil])))

theorem Kept.poll (h : Kept task s) (hf : ¬ Forgets task s (.poll d w)) :
    Kept task (s.poll d w) := by
  obtain ⟨k, hk⟩ := log_next s (.poll d w)
  have hk : (s.poll d w).log = s.log ++ k := hk
  have hphase : ∀ e v, s.Waking e v → (s.poll d w).Waking e v := fun e v hv => hv
  intro i e v hi
  cases hd : s.source.ready d with
  | true =>
      have hlog : (s.poll d w).log = s.log ++ [.polledReady d] := by rw [poll_of_ready w hd]
      have hwaker : (s.poll d w).source.waker = s.source.waker := by
        rw [poll_of_ready w hd]; exact SourceState.waker_setReady ..
      rw [hlog, getElem?_concat] at hi
      rcases hi with hi | ⟨-, hi⟩
      · rw [hwaker]
        exact (h i e v hi).imp_right (.imp (hphase e v) (·.mono hk))
      · cases hi
  | false =>
      have hlog : (s.poll d w).log = s.log ++ [.parked d w] := by rw [poll_of_not_ready w hd]
      have hwaker : (s.poll d w).source.waker = Function.update s.source.waker d (some w) := by
        rw [poll_of_not_ready w hd, SourceState.waker_updateArm, SourceState.waker_setWaker]
      rw [hlog, getElem?_concat] at hi
      rcases hi with hi | ⟨-, hi⟩
      · rcases h i e v hi with hw | hw | ha
        · by_cases hed : e = d
          · subst hed
            -- the slot is taken: by the same task, or after the waker was invoked
            by_cases hsame : task w = task v
            · refine .inr (.inr ⟨s.log.length, (List.getElem?_eq_some_iff.mp hi).1, .inr ⟨w, ?_⟩⟩)
              exact ⟨by rw [hlog, getElem?_concat]; exact .inr ⟨rfl, rfl⟩, hsame⟩
            · by_contra hn
              push Not at hn
              refine hf ⟨hd, v, hw, hsame, fun hv => hn.2.1 (hphase e v hv), i, hi, fun ha => ?_⟩
              exact hn.2.2 (ha.mono hk)
          · exact .inl (by rw [hwaker, Function.update_of_ne hed, hw])
        · exact .inr (.inl (hphase e v hw))
        · exact .inr (.inr (ha.mono hk))
      · cases hi
        exact .inl (by rw [hwaker, Function.update_self])

/-- A poll that forgets a waker. -/
theorem not_kept_poll (hf : Forgets task s (.poll d w)) : ¬ Kept task (s.poll d w) := by
  obtain ⟨hd, v, hv, hne, hnw, i, hi, hna⟩ := hf
  have hlog : (s.poll d w).log = s.log ++ [.parked d w] := by rw [poll_of_not_ready w hd]
  have hwaker : (s.poll d w).source.waker d = some w := by
    rw [poll_of_not_ready w hd, SourceState.waker_updateArm, SourceState.waker_setWaker,
      Function.update_self]
  intro h
  rcases h i d v (by rw [hlog, getElem?_concat]; exact .inl hi) with hw | hw | ⟨j, hij, ha⟩
  · rw [hwaker] at hw
    exact hne (congrArg task (Option.some.inj hw))
  · exact hnw hw
  · rw [hlog] at ha
    simp only [getElem?_concat] at ha
    rcases ha with (ha | ⟨-, ha⟩) | ⟨w', ha | ⟨-, ha⟩, ht⟩
    · exact hna ⟨j, hij, .inl ha⟩
    · cases ha
    · exact hna ⟨j, hij, .inr ⟨w', ha, ht⟩⟩
    · cases ha
      exact hne ht

theorem Kept.call (h : Kept task s) {c : Call} {cs : List Call}
    (hp : s.phase = .calling (c :: cs)) : Kept task (s.call c cs) := by
  refine h.silent rfl (fun d w hw => ?_) fun d w ⟨_, hv⟩ => ?_
  · by_cases hd : d = c.direction
    · subst hd
      exact .inr ⟨cs, by rw [← hw]; rfl⟩
    · exact .inl (by rw [waker_call, Function.update_of_ne hd, hw])
  · rw [hp] at hv; cases hv

theorem Kept.wake (h : Kept task s) {v : Option WakerId} {cs : List Call}
    (hp : s.phase = .waking d v cs) : Kept task (s.next (.wake d v cs)) := by
  obtain ⟨k, hk⟩ := log_next s (.wake d v cs)
  have hk' : k = (v.map (SourceEvent.woke d)).toList := (List.append_cancel_left hk).symm
  intro i e u hi
  have old : s.log[i]? = some (.parked e u) := by
    rw [hk, hk'] at hi
    cases v with
    | none => simpa using hi
    | some v =>
        rcases getElem?_concat.mp hi with hi | ⟨-, hi⟩
        · exact hi
        · cases hi
  rcases h i e u old with hw | ⟨cs', hw⟩ | ha
  · exact .inl hw
  · rw [hp] at hw
    cases hw
    refine .inr (.inr ⟨s.log.length, (List.getElem?_eq_some_iff.mp old).1, .inl ?_⟩)
    rw [hk, hk']
    exact getElem?_concat.mpr (.inr ⟨rfl, rfl⟩)
  · exact .inr (.inr (ha.mono hk))

/-- Every step keeps the wakers but a poll that forgets one. -/
theorem kept_next_iff (h : Kept task s) {a : SourceAct} (ha : s.Enabled a) :
    Kept task (s.next a) ↔ ¬ Forgets task s a := by
  cases a with
  | poll d w => exact ⟨fun hn hf => not_kept_poll hf hn, h.poll⟩
  | call c cs => exact ⟨fun _ hf => hf, fun _ => h.call ha⟩
  | wake d v cs => exact ⟨fun _ hf => hf, fun _ => h.wake ha⟩
  | arm mode rest ok => exact ⟨fun _ hf => hf, fun _ => h⟩
  | dispatch flags =>
      refine ⟨fun _ hf => hf, fun _ => ?_⟩
      obtain ⟨hp, e, he, -⟩ := ha
      simp only [next, dispatch, Option.mem_def.mp he]
      refine h.silent rfl (fun d w hw => .inl hw) fun d w hw => ?_
      obtain ⟨cs, hw⟩ := hw
      rw [hp] at hw; cases hw
  | dispatchDone =>
      refine ⟨fun _ hf => hf, fun _ => h.silent rfl (fun d w hw => .inl hw) fun d w hw => ?_⟩
      obtain ⟨cs, hw⟩ := hw
      rw [show s.phase = _ from ha] at hw; cases hw

/-- **No waiter is forgotten, unless another task takes its slot.**  Registrations may fail.  In
every run in which no poll forgets a waker, each waker stored by a pending poll is in its slot,
about to be invoked, invoked since, or replaced by its own task; and a step ends this if and only
if it is a poll that forgets a waker. -/
theorem kept_until_forgotten
    (h : sourceMachine.ReachableBy (fun s a => ¬ Forgets task s a) s) :
    Kept task s ∧ ∀ a, s.Enabled a → (Kept task (s.next a) ↔ ¬ Forgets task s a) := by
  have kept : Kept task s := by
    refine h.invariant ?_ fun s a _ hs hf ha => (kept_next_iff hs ha).mpr hf
    rintro s ⟨fd, id, table, -, rfl⟩
    exact kept_init fd id table
  exact ⟨kept, fun a ha => kept_next_iff kept ha⟩

/-- A task waits to read, and is polled again with another waker before its arm task has run; the
descriptor becomes readable. -/
def repollRun : List SourceAct :=
  [.poll .read 1, .poll .read 3, .arm .read [] true, .dispatch epollIn, .call ⟨5, 1, 0, .read⟩ []]

/-- The wakers 1 and 3 are of one task: the second one is about to be invoked, and the first one was
replaced by its own task. -/
theorem repollRun_kept :
    let s := sourceMachine.runList (.init 5 1 .new) repollRun
    s.Waking .read 3 ∧ Kept (· % 2) s := by
  have init : sourceMachine.Init (.init 5 1 .new) := ⟨5, 1, .new, rfl, rfl⟩
  refine ⟨⟨[], by decide +kernel⟩, (kept_until_forgotten ?_).1⟩
  -- the only poll that finds a waker in the slot is of the same task
  have first : ¬ Forgets (· % 2) (.init 5 1 .new) (.poll .read 1) := by
    rintro ⟨-, w, hw, -⟩
    cases hw
  have second : ¬ Forgets (· % 2) (next (.init 5 1 .new) (.poll .read 1)) (.poll .read 3) := by
    rintro ⟨-, w, hw, hne, -⟩
    cases hw
    exact hne rfl
  refine .of_follows (l := repollRun) init ⟨first, trivial, second, trivial, ?_⟩
  exact ⟨nofun, by decide +kernel, nofun, by decide +kernel, nofun, by decide +kernel, trivial⟩

/-- Two tasks wait for one listener to become readable. -/
def rivalRun : List SourceAct := [.poll .read 1, .poll .read 2]

/-- The waker of the first is gone: a connection wakes the second one only. -/
theorem rivalRun_forgets :
    ¬ (∀ (task : WakerId → ℕ) s, sourceMachine.Reachable s → Kept task s) ∧
    (sourceMachine.runList (.init 5 1 .new) (rivalRun ++
      [.arm .read [] true, .dispatch epollIn, .call ⟨5, 1, 0, .read⟩ [], .wake .read (some 2) [],
        .dispatchDone])).log = [.parked .read 1, .parked .read 2, .woke .read 2] := by
  refine ⟨fun h => ?_, by decide +kernel⟩
  have reached : sourceMachine.Reachable (sourceMachine.runList (.init 5 1 .new) rivalRun) :=
    .of_follows ⟨5, 1, .new, rfl, rfl⟩ (by decide +kernel)
  rcases h (fun w => w) _ reached 0 .read 1 (by decide +kernel) with hw | ⟨cs, hw⟩ | ⟨j, hj, ha⟩
  · exact absurd hw (by decide +kernel)
  · cases hw
  · -- the only later event is the other task's poll
    have hlog : (sourceMachine.runList (.init 5 1 .new) rivalRun).log =
        [.parked .read 1] ++ [.parked .read 2] := by decide +kernel
    simp only [hlog, getElem?_concat] at ha
    obtain ⟨j, rfl⟩ : ∃ k, j = k + 1 := ⟨j - 1, by omega⟩
    simp at ha

end ReactorState

end RustAsync
