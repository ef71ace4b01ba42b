import RustBase.Async.Condvar

/-!
# Async — notifications

What a notification does, and what becomes of it.

* A `CondvarWait` parks before it drops the guard, so no notification falls between the two; it
  returns with the mutex, and `wait_until` returns with the mutex and right after a call of its
  condition that was true (**`condvar_handoff`**).
* `notify_one` takes the entry of one future.  Dropping that future wakes nobody, so that the
  notification is lost to the futures parked then (**`notification_kept_iff`**).
-/

namespace RustAsync
open Support

namespace CondvarState

variable {δ κ : Type*} {call : κ → δ → Bool × κ × δ} {s : CondvarState δ κ}
  {a : CondvarAct δ κ} {f : FutId} {g : GuardId} {id : Option ℕ}

/-- The future has an entry in the wait set of the condvar. -/
def Parked (s : CondvarState δ κ) (f : FutId) : Prop :=
  ∃ (k : ℕ) (w : WakerId), s.id f = some k ∧ s.waiters.map[k]? = some w

/-- The guard is the one that has the mutex. -/
def Holds (s : CondvarState δ κ) (g : GuardId) : Prop :=
  s.mutex.inner.locked = true ∧ s.mutex.guards = [g]

/-- A guard in a future is the one that has the mutex. -/
theorem Sound.holds_of_inFuture (h : Sound s) (hg : s.inFuture g = some f) : s.Holds g := by
  have live := h.live g f hg
  cases hl : s.mutex.inner.locked with
  | true =>
      obtain ⟨g', hg'⟩ := (reachable_mutexSound h.mutex).held hl
      rw [hg'] at live
      exact ⟨hl, by rw [hg', List.mem_singleton.mp live]⟩
  | false =>
      rw [(reachable_mutexSound h.mutex).free hl] at live
      cases live

/-! ### The steps that return -/

theorem waits_of_update {e : FutId} {x : Option CondvarWait} {y : CondvarWait} (hx : x ≠ some y)
    (hr : Function.update s.waits e x f = some y) : s.waits f = some y := by
  by_cases he : f = e
  · subst he
    rw [Function.update_self] at hr
    exact absurd hr hx
  · rwa [Function.update_of_ne he] at hr

theorem waits_resolveWait {e : FutId} {id : Option ℕ} :
    (s.resolveWait e id g).waits = Function.update s.waits e (some ⟨id, .resolved g⟩) := by
  simp only [resolveWait]
  split <;> rfl

/-- The poll of the lock that gets it is the only one that returns. -/
theorem resolved_relockWait {e : FutId} {id' : Option ℕ} {w : WakerId}
    (hr : (s.relockWait e id' w).waits f = some ⟨id, .resolved g⟩) :
    s.waits f = some ⟨id, .resolved g⟩ ∨
    (s.mutex.inner.locked = false ∧ g = s.mutex.nextGuard ∧ s.relockWait e id' w =
      { s with mutex := s.mutex.next (.poll f w) }.resolveWait f id g) := by
  rcases s.relockWait_cases e id' w with ⟨hl, he⟩ | ⟨hl, he⟩
  · rw [he, waits_resolveWait] at hr
    rcases update_some_eq_some.mp hr with ⟨rfl, hx⟩ | ⟨-, hr⟩
    · cases hx
      exact .inr ⟨hl, rfl, he⟩
    · exact .inl hr
  · rw [he] at hr; exact .inl (waits_of_update (by simp) hr)

/-- A future that has returned had done so before, or has just got the lock. -/
theorem resolved_next (hr : (s.next call a).waits f = some ⟨id, .resolved g⟩) :
    s.waits f = some ⟨id, .resolved g⟩ ∨
    ∃ w, s.mutex.inner.locked = false ∧ g = s.mutex.nextGuard ∧ s.next call a =
      { s with mutex := s.mutex.next (.poll f w) }.resolveWait f id g := by
  cases a with
  | mutex a | write g' d | notifyOne | notifyAll | waitUntil e g' c => exact .inl hr
  | wait e g' => exact .inl (waits_of_update (by simp) hr)
  | poll e w =>
      simp only [next, poll] at hr ⊢
      split at hr
      · exact .inl (waits_of_update (by simp) hr)
      · exact .inl (waits_of_update (by simp) hr)
      · exact (resolved_relockWait hr).imp_right fun h => ⟨w, h⟩
      · exact .inl hr
  | resume e =>
      simp only [next, resume] at hr ⊢
      split at hr
      · exact .inl (waits_of_update (by simp) hr)
      · exact (resolved_relockWait hr).imp_right fun h => ⟨_, h⟩
      · exact .inl hr
  | drop e =>
      simp only [next, dropWait, waits_dropUntil] at hr
      split at hr
      · simp only [releaseWait, waits_dropUntil] at hr
        exact .inl (waits_of_update (by simp) hr)
      · exact .inl (waits_of_update (by simp) hr)
      · exact .inl (waits_of_update (by simp) hr)
      · exact .inl (waits_of_update (by simp) hr)
      · rw [waits_dropUntil] at hr; exact .inl hr
  | check e =>
      simp only [next, check] at hr
      split at hr
      · split at hr
        · exact .inl hr
        · exact .inl (waits_of_update (by simp) hr)
      · exact .inl hr

/-- `wait` returns with the mutex: its caller has the guard, or the `wait_until` it is in. -/
theorem holds_of_resolved (h : Sound s) (hr : (s.next call a).waits f = some ⟨id, .resolved g⟩)
    (hn : s.waits f ≠ some ⟨id, .resolved g⟩) :
    (s.next call a).Holds g ∧ ((s.next call a).inFuture g = none ∨
      ∃ c, (s.next call a).untils f = some (.check g c)) := by
  obtain ⟨w, hl, rfl, he⟩ := (resolved_next hr).resolve_left hn
  obtain ⟨guards, locked⟩ := h.guards_poll (f := f) hl w
  rw [he, resolveWait]
  cases hu : s.untils f with
  | none => exact ⟨⟨locked, guards⟩, .inl (h.inFuture_of_free hl _)⟩
  | some u =>
      cases u with
      | check g c => exact ⟨⟨locked, guards⟩, .inl (h.inFuture_of_free hl _)⟩
      | waiting c => exact ⟨⟨locked, guards⟩, .inr ⟨c, Function.update_self ..⟩⟩

theorem untils_of_update {e : FutId} {u : Option (UntilState κ)} (hu : s.untils f ≠ none)
    (hx : u ≠ none) : Function.update s.untils e u f ≠ none := by
  by_cases he : f = e
  · subst he; rwa [Function.update_self]
  · rwa [Function.update_of_ne he]

theorem untils_relockWait {e : FutId} {w : WakerId} (hu : s.untils f ≠ none) :
    (s.relockWait e id w).untils f ≠ none := by
  rcases s.relockWait_cases e id w with ⟨-, he⟩ | ⟨-, he⟩
  · rw [he]
    simp only [resolveWait]
    split
    · exact untils_of_update hu (by simp)
    · exact hu
  · rw [he]; exact hu

/-- A `wait_until` ends when it is dropped, or when its condition is called and is true. -/
theorem untils_next (hu : s.untils f ≠ none) (hr : (s.next call a).untils f = none) :
    a = .drop f ∨ ∃ g c, a = .check f ∧ s.untils f = some (.check g c) ∧
      (call c s.data).1 = true := by
  by_contra hn
  push Not at hn
  obtain ⟨hd, hc⟩ := hn
  refine absurd hr ?_
  cases a with
  | mutex a | write g' d | wait e g' | notifyOne | notifyAll => exact hu
  | waitUntil e g' c => exact untils_of_update hu (by simp)
  | poll e w =>
      simp only [next, poll]
      split
      · exact hu
      · exact hu
      · exact untils_relockWait hu
      · exact hu
  | resume e =>
      simp only [next, resume]
      split
      · exact hu
      · exact untils_relockWait hu
      · exact hu
  | drop e =>
      have he : f ≠ e := fun he => hd (by rw [he])
      have keep : (s.dropUntil e).untils f ≠ none := by
        rcases s.dropUntil_cases e with ⟨c, -, he'⟩ | ⟨-, he'⟩
        · rw [he']; simp only [Function.update_of_ne he]; exact hu
        · rw [he']; exact hu
      simp only [next, dropWait]
      split <;> exact keep
  | check e =>
      by_cases hue : ∃ g c, s.untils e = some (.check g c)
      · obtain ⟨g, c, hue⟩ := hue
        rcases check_cases call hue with ⟨ht, he⟩ | ⟨-, he⟩
        · have hne : f ≠ e := by
            rintro rfl
            exact hc g c rfl hue ht
          rw [next, he]
          simp only [Function.update_of_ne hne]
          exact hu
        · rw [next, he]
          exact untils_of_update hu (by simp)
      · simp only [next, check]
        split
        · rename_i g c hue'
          exact absurd ⟨g, c, hue'⟩ hue
        · exact hu

/-- `wait_until` returns with the mutex, right after its condition was true of the data. -/
theorem holds_of_returned (h : Sound s) {c : κ} (hu : s.untils f = some (.check g c))
    (ht : (call c s.data).1 = true) :
    (s.next call (.check f)).Holds g ∧ (s.next call (.check f)).inFuture g = none ∧
    (s.next call (.check f)).data = (call c s.data).2.2 := by
  have hs := h.shape f
  rw [ShapeAt, hu] at hs
  rcases check_cases call hu with ⟨-, he⟩ | ⟨hf, -⟩
  · rw [next, he]
    exact ⟨h.holds_of_inFuture hs.of_check, Function.update_self .., rfl⟩
  · rw [ht] at hf; cases hf

/-- Only a future that has parked and not yet been polled again has an id. -/
theorem Sound.state_of_id (h : Sound s) {k : ℕ} (hid : s.id f = some k) :
    s.waits f = some ⟨some k, .waiting⟩ ∨ ∃ g, s.waits f = some ⟨some k, .releasing g⟩ := by
  obtain ⟨x, hw, hk⟩ := Option.bind_eq_some_iff.mp hid
  have hs := h.shapeAt hw
  generalize s.untils f = u at hs
  generalize s.mutex.locks.ids f = l at hs
  cases hs with
  | waiting _ => cases hk; exact .inl hw
  | releasing _ _ => cases hk; exact .inr ⟨_, hw⟩
  | init _ _ | relock _ | relocking _ | resolved | returned _ => cases hk

/-! ### The steps that wake -/

/-- The `CondvarWait` has parked under the id `k` and was not polled since. -/
def AtId (s : CondvarState δ κ) (f : FutId) (k : ℕ) : Prop :=
  s.waits f = some ⟨some k, .waiting⟩ ∨ ∃ g, s.waits f = some ⟨some k, .releasing g⟩

theorem Sound.atId_iff (h : Sound s) {k : ℕ} : s.AtId f k ↔ s.id f = some k := by
  refine ⟨?_, h.state_of_id⟩
  rintro (hw | ⟨g, hw⟩) <;> simp [CondvarState.id, hw]

/-- A waker is awaited until it is invoked, or until the future is not in `Waiting`. -/
theorem awaiting_next {w : WakerId} (hw : s.awaiting f = some w)
    (hn : (s.next call a).awaiting f ≠ some w) :
    w ∈ (s.next call a).woken.drop s.woken.length ∨
      ∀ id, (s.next call a).waits f ≠ some ⟨id, .waiting⟩ := by
  -- a step that moves the future `e` only, to a state that is not `Waiting`
  have moved : ∀ {s' : CondvarState δ κ} {e : FutId} {x : Option CondvarWait}
      {v : Option WakerId}, s'.awaiting = Function.update s.awaiting e v →
      s'.waits = Function.update s.waits e x → (∀ id, x ≠ some ⟨id, .waiting⟩) →
      s'.awaiting f ≠ some w → ∀ id, s'.waits f ≠ some ⟨id, .waiting⟩ :=
    fun {s' e x v} ha hx hne hn id hid => by
      by_cases he : f = e
      · subst he
        rw [hx, Function.update_self] at hid
        exact hne id hid
      · rw [ha, Function.update_of_ne he] at hn
        exact hn hw
  have relocked : ∀ {e : FutId} {id : Option ℕ} {v : WakerId},
      (s.relockWait e id v).awaiting = s.awaiting := fun {e id v} => by
    rcases s.relockWait_cases e id v with ⟨-, he⟩ | ⟨-, he⟩
    · rw [he]
      simp only [resolveWait]
      split <;> rfl
    · rw [he]
  cases a with
  | mutex a | write g d | wait e g | waitUntil e g c => exact absurd hw hn
  | notifyOne | notifyAll =>
      refine .inl ?_
      simp only [next, notifyOne, notifyAll, List.drop_left] at hn ⊢
      by_contra hm
      exact hn (stillAwaiting_eq_some.mpr ⟨hw, hm⟩)
  | poll e v =>
      simp only [next, poll] at hn ⊢
      split at hn
      · exact .inr (moved rfl rfl (by simp) hn)
      · exact .inr (moved rfl rfl (by simp) hn)
      · rw [relocked] at hn; exact absurd hw hn
      · exact absurd hw hn
  | resume e =>
      simp only [next, resume] at hn
      split at hn
      · exact absurd hw hn
      · rw [relocked] at hn; exact absurd hw hn
      · exact absurd hw hn
  | drop e =>
      have same : (s.dropUntil e).awaiting = s.awaiting := by
        rcases s.dropUntil_cases e with ⟨c, -, he⟩ | ⟨-, he⟩ <;> rw [he]
      simp only [next, dropWait] at hn ⊢
      split at hn
      · exact absurd (same ▸ hw) hn
      · exact .inr (moved (by rw [same]) (by rw [waits_dropUntil]) (by simp) hn)
      · exact absurd (same ▸ hw) hn
      · exact absurd (same ▸ hw) hn
      · exact absurd (same ▸ hw) hn
  | check e =>
      simp only [next, check] at hn
      split at hn
      · split at hn <;> exact absurd hw hn
      · exact absurd hw hn

/-- `notify_all` invokes every waker awaited, and leaves the map empty. -/
theorem Sound.wakes_notifyAll (h : Sound s) :
    ∃ ws, (s.next call .notifyAll).woken = s.woken ++ ws ∧
      (s.next call .notifyAll).waiters.IsEmpty ∧
      ∀ f w, s.awaiting f = some w → w ∈ ws ∧ (s.next call .notifyAll).awaiting f = none := by
  refine ⟨s.waiters.wakeAll.1, rfl, Waiters.isEmpty_wakeAll, fun f w hw => ?_⟩
  have hm := h.parks.mem_wakeAll hw
  refine ⟨hm, Option.eq_none_iff_forall_ne_some.mpr fun v hv => ?_⟩
  obtain ⟨hv, hn⟩ := stillAwaiting_eq_some.mp hv
  rw [hw] at hv
  cases hv
  exact hn hm

/-- `notify_one` invokes the waker of the least entry, and takes that entry out of the map. -/
theorem Sound.wakes_notifyOne (h : Sound s) {k : ℕ} {w : WakerId}
    (hk : s.waiters.map[k]? = some w) (least : ∀ j, s.waiters.map[j]? ≠ none → k ≤ j) :
    (s.next call .notifyOne).woken = s.woken ++ [w] ∧
    (s.next call .notifyOne).waiters.map[k]? = none ∧
    (∀ j, j ≠ k → (s.next call .notifyOne).waiters.map[j]? = s.waiters.map[j]?) ∧
    ∀ f, s.id f = some k → (s.next call .notifyOne).awaiting f = none := by
  have wake := Waiters.wakeOne_of_least hk least
  have woken : (s.next call .notifyOne).woken = s.woken ++ s.waiters.wakeOne.1 := rfl
  have map : (s.next call .notifyOne).waiters = s.waiters.wakeOne.2 := rfl
  have awaits : (s.next call .notifyOne).awaiting =
      stillAwaiting s.awaiting s.waiters.wakeOne.1 := rfl
  rw [woken, map, awaits, wake]
  refine ⟨rfl, ?_, fun j hj => ?_, fun f hf => ?_⟩
  · simp
  · simp [Std.TreeMap.getElem?_erase, Ne.symm hj]
  · refine Option.eq_none_iff_forall_ne_some.mpr fun v hv => ?_
    obtain ⟨hv, hn⟩ := stillAwaiting_eq_some.mp hv
    -- what `f` awaits is the waker of its entry
    obtain ⟨j, hj, hm⟩ := h.parks.parked f v hv
    rw [hf] at hj
    cases hj
    rw [hk] at hm
    exact hn (List.mem_singleton.mpr (Option.some.inj hm).symm)

end CondvarState

/-! ### The handoff -/

/-- **Notifications reach who waits, and waiting ends with the mutex.**  In every reachable state:

* a `CondvarWait` in `Waiting` is parked, or the waker it parked has been invoked since: it awaits
  that waker from the poll that parks until the step that invokes it, or until it leaves `Waiting`;
* the step `notify_all` wakes everyone who has dropped the guard, is in `Waiting` and was not woken
  yet, and empties the map;
* the step `notify_one`, when somebody is parked, wakes the one future with the smallest id, whose
  entry leaves the map, and nobody else;
* the step by which `wait` returns leaves the guard it returns as the only one, with the caller or
  with the `wait_until` that called it;
* the step by which `wait_until` returns is a call of the condition that is true, with the guard
  returned the only one and now in the hands of the caller. -/
theorem condvar_handoff {δ κ : Type*} {call : κ → δ → Bool × κ × δ} {s : CondvarState δ κ}
    (h : (condvarMachine call).Reachable s) :
    (∀ f id, s.waits f = some ⟨id, .waiting⟩ → s.Parked f ∨ s.awaiting f = none) ∧
    (∀ f id g w, s.waits f = some ⟨id, .init g⟩ →
      (s.next call (.poll f w)).Parked f ∧ (s.next call (.poll f w)).awaiting f = some w) ∧
    (∀ a f w, s.awaiting f = some w → (s.next call a).awaiting f ≠ some w →
      w ∈ (s.next call a).woken.drop s.woken.length ∨
        ∀ id, (s.next call a).waits f ≠ some ⟨id, .waiting⟩) ∧
    (∃ ws, (s.next call .notifyAll).woken = s.woken ++ ws ∧
      (s.next call .notifyAll).waiters.IsEmpty ∧
      ∀ f id, s.waits f = some ⟨id, .waiting⟩ → s.awaiting f = none ∨
        ∃ w ∈ ws, s.awaiting f = some w ∧ (s.next call .notifyAll).awaiting f = none) ∧
    (¬ s.waiters.IsEmpty → ∃ (k : ℕ) (w : WakerId) (f : FutId), s.waiters.map[k]? = some w ∧
      (∀ j, s.waiters.map[j]? ≠ none → k ≤ j) ∧ (∀ e, s.AtId e k ↔ e = f) ∧
      (s.next call .notifyOne).woken = s.woken ++ [w] ∧
      (s.next call .notifyOne).awaiting f = none ∧
      (s.next call .notifyOne).waiters.map[k]? = none ∧
      ∀ j, j ≠ k → (s.next call .notifyOne).waiters.map[j]? = s.waiters.map[j]?) ∧
    (∀ a f id g, s.Enabled a → (s.next call a).waits f = some ⟨id, .resolved g⟩ →
      s.waits f ≠ some ⟨id, .resolved g⟩ →
      (s.next call a).Holds g ∧ ((s.next call a).inFuture g = none ∨
        ∃ c, (s.next call a).untils f = some (.check g c))) ∧
    (∀ a f, s.Enabled a → s.untils f ≠ none → (s.next call a).untils f = none → a ≠ .drop f →
      ∃ g c, a = .check f ∧ s.untils f = some (.check g c) ∧ (call c s.data).1 = true ∧
        (s.next call a).data = (call c s.data).2.2 ∧ (s.next call a).Holds g ∧
        (s.next call a).inFuture g = none) := by
  have hs := reachable_condvarSound h
  refine ⟨fun f id _ => ?_, fun f id g w hi => ?_, fun a f w => CondvarState.awaiting_next, ?_,
    fun hne => ?_, fun a f id g _ hr hn => ?_, fun a f _ hu hr ha => ?_⟩
  · cases hw : s.awaiting f with
    | none => exact .inr rfl
    | some w =>
        obtain ⟨k, hid, hk⟩ := hs.parks.parked f w hw
        exact .inl ⟨k, w, hid, hk⟩
  · have he : s.next call (.poll f w) = s.parkWait f id g w := by
      simp only [CondvarState.next, CondvarState.poll, hi]
    rw [he]
    refine ⟨⟨(s.waiters.park id w).1, w, ?_, ?_⟩, Function.update_self ..⟩
    · simp [CondvarState.id, CondvarState.parkWait]
    · exact (Waiters.getElem?_park _).trans (if_pos rfl)
  · obtain ⟨ws, woken, empty, all⟩ := hs.wakes_notifyAll
    refine ⟨ws, woken, empty, fun f id _ => ?_⟩
    cases hw : s.awaiting f with
    | none => exact .inl rfl
    | some w => exact .inr ⟨w, (all f w hw).1, rfl, (all f w hw).2⟩
  · obtain ⟨k, w, hk, least⟩ := Waiters.exists_least hne
    obtain ⟨f, hid, only⟩ := hs.parks.existsUnique hk
    obtain ⟨woken, gone, others, awaits⟩ := hs.wakes_notifyOne hk least
    refine ⟨k, w, f, hk, least, fun e => ?_, woken, awaits f hid, gone, others⟩
    rw [hs.atId_iff]
    exact ⟨only e, fun he => he ▸ hid⟩
  · exact CondvarState.holds_of_resolved hs hr hn
  · obtain ⟨g, c, rfl, hc, ht⟩ := (CondvarState.untils_next hu hr).resolve_left ha
    obtain ⟨holds, hand, data⟩ := CondvarState.holds_of_returned hs hc ht
    exact ⟨g, c, rfl, hc, ht, data, holds, hand⟩

/-- The condition is that the data is not 0. -/
def nonzero (_ : Unit) (d : ℕ) : Bool × Unit × ℕ := (d != 0, (), d)

/-- A task waits until the data is not 0, and another one sets it. -/
def waitingRun : List (CondvarAct ℕ Unit) :=
  [.mutex .tryLock, .waitUntil 0 0 (), .check 0, .poll 0 5, .resume 0, .mutex .tryLock,
    .write 1 7]

def waitingState : CondvarState ℕ Unit := (condvarMachine nonzero).runList (.new 0) waitingRun

/-- The other task notifies and drops its guard, and the first one gets the mutex back. -/
def untilState : CondvarState ℕ Unit :=
  (condvarMachine nonzero).runList (.new 0) (waitingRun ++
    [.notifyOne, .mutex (.dropGuard 1), .poll 0 5, .resume 0, .drop 0])

/-- `notify_one` wakes the waiting task, whose entry leaves the map; later the next call of the
condition ends the wait, with the guard in hand. -/
theorem untilState_returns :
    (waitingState.Parked 0 ∧ (waitingState.next nonzero .notifyOne).woken = [5] ∧
      (waitingState.next nonzero .notifyOne).awaiting 0 = none ∧
      ¬ (waitingState.next nonzero .notifyOne).Parked 0) ∧
    (untilState.next nonzero (.check 0)).untils 0 = none ∧
    (untilState.next nonzero (.check 0)).Holds 2 := by
  constructor
  · have reach : (condvarMachine nonzero).Reachable waitingState :=
      .of_follows ⟨0, rfl⟩ (by decide +kernel)
    have entry : waitingState.waiters.map[0]? = some 5 := by decide +kernel
    have hw : waitingState.waits 0 = some ⟨some 0, .waiting⟩ := by decide +kernel
    have hid : (waitingState.next nonzero .notifyOne).id 0 = some 0 := by decide +kernel
    obtain ⟨k, w, f, hk, least, only, woken, awaits, gone, -⟩ :=
      (condvar_handoff reach).2.2.2.2.1 fun he => by rw [he 0] at entry; cases entry
    obtain rfl : k = 0 := Nat.le_zero.mp (least 0 (by rw [entry]; simp))
    obtain rfl : 0 = f := (only 0).mp (.inl hw)
    rw [entry] at hk
    cases hk
    refine ⟨⟨0, 5, by decide +kernel, entry⟩, woken, awaits, ?_⟩
    rintro ⟨k, w, hk, hm⟩
    rw [hid] at hk
    cases hk
    rw [gone] at hm
    cases hm
  · have reach : (condvarMachine nonzero).Reachable untilState :=
      .of_follows ⟨0, rfl⟩ (by decide +kernel)
    have hu : untilState.untils 0 = some (.check 2 ()) := by decide +kernel
    have hr : (untilState.next nonzero (.check 0)).untils 0 = none := by decide +kernel
    obtain ⟨g, c, -, hc, -, -, holds, -⟩ := (condvar_handoff reach).2.2.2.2.2.2 (.check 0) 0
      (by decide +kernel) (by rw [hu]; simp) hr (by simp)
    rw [hu] at hc
    cases hc
    exact ⟨hr, holds⟩

/-! ### A notified future is dropped -/

namespace CondvarState

variable {δ κ : Type*} {call : κ → δ → Bool × κ × δ} {s : CondvarState δ κ}
  {a : CondvarAct δ κ} {f : FutId}

/-- The wakers that the drop of a `CondvarWait` invokes: those that the drop of a guard in it does.
Its own `drop`, and that of its lock, only take an entry out. -/
def dropWakes (s : CondvarState δ κ) (f : FutId) : List WakerId :=
  match s.waits f with
  | some ⟨_, .init _⟩ => s.mutex.inner.dropGuard.1
  | _ => []

/-- When others are parked as `f` is dropped, one of them is woken instead. -/
def NotificationKept (s : CondvarState δ κ) (f : FutId) : Prop :=
  (∃ e, e ≠ f ∧ s.Parked e) →
    ∃ (e : FutId) (k : ℕ) (w : WakerId), e ≠ f ∧ s.id e = some k ∧
      s.waiters.map[k]? = some w ∧ w ∈ s.dropWakes f

/-- `notify_one` picks no future that has not parked. -/
def InitUnpicked (s : CondvarState δ κ) : Prop :=
  ∀ f id g, s.waits f = some ⟨id, .init g⟩ → s.picked f = false

theorem picked_relockWait {e : FutId} {id : Option ℕ} {w : WakerId} :
    (s.relockWait e id w).picked = s.picked := by
  rcases s.relockWait_cases e id w with ⟨-, he⟩ | ⟨-, he⟩
  · rw [he]
    simp only [resolveWait]
    split <;> rfl
  · rw [he]

theorem waits_relockWait (e : FutId) (id : Option ℕ) (w : WakerId) :
    ∃ x : WaitState, (∀ g, x ≠ .init g) ∧
      (s.relockWait e id w).waits = Function.update s.waits e (some ⟨id, x⟩) := by
  rcases s.relockWait_cases e id w with ⟨-, he⟩ | ⟨-, he⟩
  · rw [he]
    exact ⟨_, by simp, waits_resolveWait⟩
  · rw [he]
    exact ⟨_, by simp, rfl⟩

theorem picked_dropUntil : (s.dropUntil f).picked = s.picked := by
  rcases s.dropUntil_cases f with ⟨c, -, he⟩ | ⟨-, he⟩ <;> rw [he]

/-- A future goes on to a state that is not the first one. -/
theorem InitUnpicked.of_update {s' : CondvarState δ κ} (hi : s.InitUnpicked) {e : FutId}
    {x : Option CondvarWait} (hw : s'.waits = Function.update s.waits e x)
    (hx : ∀ id g, x ≠ some ⟨id, .init g⟩) (hp : s'.picked = s.picked) : s'.InitUnpicked := by
  intro f id g hf
  rw [hw] at hf
  rw [hp]
  exact hi f id g (waits_of_update (hx id g) hf)

theorem InitUnpicked.relockWait (hi : s.InitUnpicked) (e : FutId) (id : Option ℕ) (w : WakerId) :
    (s.relockWait e id w).InitUnpicked := by
  obtain ⟨x, hx, he⟩ := waits_relockWait (s := s) e id w
  exact hi.of_update he (by simp [hx]) picked_relockWait

theorem InitUnpicked.wait (hi : s.InitUnpicked) (e : FutId) (g : GuardId) :
    (s.wait e g).InitUnpicked := by
  intro f id g' hw
  by_cases he : f = e
  · subst he; exact Function.update_self ..
  · simp only [CondvarState.wait, Function.update_of_ne he] at hw ⊢
    exact hi f id g' hw

theorem initUnpicked_next (h : Sound s) (hi : s.InitUnpicked) : (s.next call a).InitUnpicked := by
  cases a with
  | mutex a | write g d | notifyAll | waitUntil e g c => exact hi
  | wait e g => exact hi.wait e g
  | notifyOne =>
      intro f id g hw
      -- a future that has not parked has no id
      obtain ⟨rfl, -⟩ := (h.shapeAt hw).of_init
      have hid : s.id f = none := by
        have : s.waits f = some ⟨none, .init g⟩ := hw
        simp [CondvarState.id, this]
      cases hk : s.waiters.map.keys.head? <;> simp [next, notifyOne, hi f none g hw, hid, hk]
  | poll e w =>
      simp only [next, poll]
      split
      · exact hi.of_update rfl (by simp) rfl
      · exact hi.of_update rfl (by simp) rfl
      · exact hi.relockWait _ _ _
      · exact hi
  | resume e =>
      simp only [next, resume]
      split
      · exact hi.of_update rfl (by simp) rfl
      · exact hi.relockWait _ _ _
      · exact hi
  | drop e =>
      have hd : (s.dropUntil e).InitUnpicked := by
        intro f id g hw
        rw [waits_dropUntil] at hw
        rw [picked_dropUntil]
        exact hi f id g hw
      simp only [next, dropWait]
      split
      · exact hd.of_update rfl (by simp) rfl
      · exact hd.of_update rfl (by simp) rfl
      · exact hd.of_update rfl (by simp) rfl
      · exact hd.of_update rfl (by simp) rfl
      · exact hd
  | check e =>
      simp only [next, check]
      split
      · split
        · exact hi
        · exact InitUnpicked.wait (by exact hi) e _
      · exact hi

end CondvarState

theorem reachable_initUnpicked {δ κ : Type*} {call : κ → δ → Bool × κ × δ} {s : CondvarState δ κ}
    (h : (condvarMachine call).Reachable s) : s.InitUnpicked := by
  refine h.invariant (fun s h₀ => ?_) fun s a hr hi _ _ =>
    CondvarState.initUnpicked_next (reachable_condvarSound hr) hi
  obtain ⟨d, rfl⟩ := h₀
  intro f id g hw
  cases hw

/-- **A notification dies with the future it woke.**  In every reachable state, when `notify_one`
has picked a `CondvarWait` that has not returned and that is dropped now, one of the other futures
is woken instead just when there is none that would have to be: no other future is parked. -/
theorem notification_kept_iff {δ κ : Type*} {call : κ → δ → Bool × κ × δ} {s : CondvarState δ κ}
    (h : (condvarMachine call).Reachable s) {f : FutId} {x : CondvarWait}
    (hw : s.waits f = some x) (hr : ∀ g, x.state ≠ .resolved g) (ha : s.Enabled (.drop f))
    (hp : s.picked f = true) :
    s.NotificationKept f ↔ ∀ e, e ≠ f → ¬ s.Parked e := by
  have wakes : s.dropWakes f = [] := by
    obtain ⟨id, state⟩ := x
    cases state with
    | init g =>
        rw [reachable_initUnpicked h f id g hw] at hp
        cases hp
    | waiting | relocking => simp only [CondvarState.dropWakes, hw]
    | resolved g => exact absurd rfl (hr g)
    | releasing g | relock w => simp [CondvarState.Enabled, hw, WaitState.inPoll] at ha
  constructor
  · intro kept e he hpe
    obtain ⟨_, _, w, -, -, -, hmem⟩ := kept ⟨e, he, hpe⟩
    rw [wakes] at hmem
    cases hmem
  · rintro none ⟨e, he, hpe⟩
    exact absurd hpe (none e he)

/-- One task waits, `notify_one` picks it, and it polls while another task has the mutex. -/
def soloRun : List (CondvarAct Unit Unit) :=
  [.mutex .tryLock, .wait 0 0, .poll 0 5, .resume 0, .notifyOne, .mutex .tryLock, .poll 0 5,
    .resume 0]

/-- The state after it, with any condition. -/
def soloState : CondvarState Unit Unit :=
  (condvarMachine fun _ _ => (true, (), ())).runList (.new ()) soloRun

/-- It may be dropped: nobody else waits. -/
theorem soloState_kept :
    soloState.picked 0 = true ∧ soloState.waits 0 = some ⟨none, .relocking⟩ ∧
    soloState.NotificationKept 0 := by
  have reach : (condvarMachine fun _ _ => (true, (), ())).Reachable soloState :=
    .of_follows ⟨(), rfl⟩ (by decide +kernel)
  have hw : soloState.waits 0 = some ⟨none, .relocking⟩ := by decide +kernel
  have hp : soloState.picked 0 = true := by decide +kernel
  refine ⟨hp, hw, (notification_kept_iff reach hw (by simp) (by decide +kernel) hp).mpr ?_⟩
  rintro e he ⟨k, w, hid, -⟩
  have noWait : soloState.waits e = none := by
    change Function.update (Function.update (Function.update (Function.update
      (Function.update (fun _ => none) 0 _) 0 _) 0 _) 0 _) 0 _ e = none
    simp [he]
  rw [CondvarState.id, noWait] at hid
  cases hid

/-- Two tasks wait, and `notify_one` picks the first. -/
def pickRun : List (CondvarAct Unit Unit) :=
  [.mutex .tryLock, .wait 0 0, .poll 0 5, .resume 0,
    .mutex .tryLock, .wait 1 1, .poll 1 6, .resume 1, .notifyOne]

/-- The state after it, with any condition. -/
def pickState : CondvarState Unit Unit :=
  (condvarMachine fun _ _ => (true, (), ())).runList (.new ()) pickRun

/-- The first task is dropped, and nothing wakes the second. -/
theorem pickState_not_kept :
    (condvarMachine fun _ _ => (true, (), ())).Follows (fun _ _ => True) (.new ())
      (pickRun ++ [.drop 0]) ∧
    pickState.waits 0 = some ⟨some 0, .waiting⟩ ∧ pickState.picked 0 = true ∧
    ¬ pickState.NotificationKept 0 := by
  refine ⟨by decide +kernel, by decide +kernel, by decide +kernel, fun kept => ?_⟩
  have parked : pickState.id 1 = some 1 ∧ pickState.waiters.map[1]? = some 6 := by decide +kernel
  obtain ⟨_, _, w, -, -, -, hmem⟩ := kept ⟨1, by decide, 1, 6, parked.1, parked.2⟩
  have wakes : pickState.dropWakes 0 = [] := by decide +kernel
  rw [wakes] at hmem
  cases hmem

end RustAsync
