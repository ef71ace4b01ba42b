import RustBase.Async.Waiters

/-!
# Async — Mutex

`Mutex` of `sync.rs`, with any number of `Lock` futures and guards.  Every function has one critical
section of the inner lock, so each is one step; a future may be polled at any time by any waker, and
dropped at any time.  A `Lock` that has resolved is again like one that was never polled.

`MutexState.Sound`: there is a guard exactly while `locked` is set, nobody is parked while it is
clear, and the wait set goes together with the futures.  Since a release wakes everybody, a future
that was woken and is dropped leaves nobody behind (**`mutex_sound`**).
-/

namespace RustAsync
open Support

/-! ### The code -/

structure MutexInner where
  locked : Bool
  waiters : Waiters

namespace MutexInner

def new : MutexInner := ⟨false, .new⟩

/-- `Mutex::try_lock`; whether there is a guard. -/
def tryLock (s : MutexInner) : Bool × MutexInner :=
  if s.locked then (false, s) else (true, { s with locked := true })

/-- `Lock::poll`, with the id it leaves in the future. -/
def pollLock (s : MutexInner) (id : Option ℕ) (w : WakerId) :
    Poll Unit × Option ℕ × MutexInner :=
  if !s.locked then (.ready (), none, ⟨true, s.waiters.unpark id⟩)
  else
    let (k, x) := s.waiters.park id w
    (.pending, some k, { s with waiters := x })

/-- `Drop for Lock`. -/
def dropLock (s : MutexInner) (id : Option ℕ) : MutexInner :=
  if id.isSome then { s with waiters := s.waiters.unpark id } else s

/-- `Drop for MutexGuard`, with the wakers it invokes. -/
def dropGuard (s : MutexInner) : List WakerId × MutexInner :=
  let (woken, x) := s.waiters.wakeAll
  (woken, ⟨false, x⟩)

variable {s : MutexInner} {id : Option ℕ} {w : WakerId}

theorem dropLock_eq : s.dropLock id = { s with waiters := s.waiters.unpark id } := by
  cases id <;> rfl

/-- What a poll does: it takes the lock, or parks while someone has it. -/
theorem pollLock_cases (s : MutexInner) (id : Option ℕ) (w : WakerId) :
    (s.locked = false ∧ s.pollLock id w = (.ready (), none, ⟨true, s.waiters.unpark id⟩)) ∨
    (s.locked = true ∧ s.pollLock id w =
      (.pending, some (s.waiters.park id w).1, ⟨true, (s.waiters.park id w).2⟩)) := by
  obtain ⟨locked, x⟩ := s
  cases locked
  · exact .inl ⟨rfl, rfl⟩
  · exact .inr ⟨rfl, rfl⟩

end MutexInner

/-! ### The machine -/

structure MutexState where
  inner : MutexInner
  /-- the `Lock` futures -/
  locks : Futures
  /-- the live guards -/
  guards : List GuardId
  nextGuard : GuardId

inductive MutexAct where
  | lock (f : FutId)
  | poll (f : FutId) (w : WakerId)
  | dropLock (f : FutId)
  | tryLock
  | dropGuard (g : GuardId)
  deriving DecidableEq

namespace MutexState

def new : MutexState where
  inner := .new
  locks := .new
  guards := []
  nextGuard := 0

def Enabled (s : MutexState) : MutexAct → Prop
  | .lock f => s.locks.ids f = none
  | .poll f _ | .dropLock f => (s.locks.ids f).isSome = true
  | .tryLock => True
  | .dropGuard g => g ∈ s.guards

instance (s : MutexState) : ∀ a, Decidable (s.Enabled a)
  | .lock _ | .poll _ _ | .dropLock _ => inferInstanceAs (Decidable (_ = _))
  | .tryLock => inferInstanceAs (Decidable True)
  | .dropGuard _ => inferInstanceAs (Decidable (_ ∈ _))

/-- A guard is made. -/
def addGuard (s : MutexState) : MutexState :=
  { s with guards := s.nextGuard :: s.guards, nextGuard := s.nextGuard + 1 }

def poll (s : MutexState) (f : FutId) (w : WakerId) : MutexState :=
  let (result, id, inner) := s.inner.pollLock (s.locks.id f) w
  match result with
  | .ready _ => { s with inner := inner, locks := s.locks.polled f id none }.addGuard
  | .pending => { s with inner := inner, locks := s.locks.polled f id (some w) }

def next (s : MutexState) : MutexAct → MutexState
  | .lock f => { s with locks := s.locks.create f }
  | .poll f w => s.poll f w
  | .dropLock f =>
      { s with inner := s.inner.dropLock (s.locks.id f), locks := s.locks.drop f }
  | .tryLock =>
      let (ok, inner) := s.inner.tryLock
      let s := { s with inner := inner }
      if ok then s.addGuard else s
  | .dropGuard g =>
      let (woken, inner) := s.inner.dropGuard
      { s with inner := inner, guards := s.guards.erase g, locks := s.locks.woken woken }

end MutexState

def mutexMachine : Machine MutexState MutexAct where
  Init := fun s => s = .new
  Enabled := MutexState.Enabled
  next := MutexState.next

instance : ∀ s a, Decidable (mutexMachine.Enabled s a) :=
  fun s a => inferInstanceAs (Decidable (s.Enabled a))

/-! ### What a step leaves alone -/

/-- The future a step is about. -/
def MutexAct.future : MutexAct → Option FutId
  | .lock f | .poll f _ | .dropLock f => some f
  | .tryLock | .dropGuard _ => none

namespace MutexState

variable {s : MutexState} {a : MutexAct} {f : FutId} {g : GuardId}

theorem next_tryLock (s : MutexState) :
    (s.inner.locked = true ∧ s.next .tryLock = s) ∨
    (s.inner.locked = false ∧
      s.next .tryLock = { s with inner := { s.inner with locked := true } }.addGuard) := by
  cases hl : s.inner.locked with
  | true => exact .inl ⟨rfl, by simp [next, MutexInner.tryLock, hl]⟩
  | false => exact .inr ⟨rfl, by simp [next, MutexInner.tryLock, hl]⟩

/-- What a poll does to the futures and the guards. -/
theorem next_poll (s : MutexState) (f : FutId) (w : WakerId) :
    (s.inner.locked = false ∧ s.next (.poll f w) =
      { s with
        inner := ⟨true, s.inner.waiters.unpark (s.locks.id f)⟩
        locks := s.locks.polled f none none }.addGuard) ∨
    (s.inner.locked = true ∧ s.next (.poll f w) =
      { s with
        inner := ⟨true, (s.inner.waiters.park (s.locks.id f) w).2⟩
        locks := s.locks.polled f (some (s.inner.waiters.park (s.locks.id f) w).1) (some w) }) := by
  rcases s.inner.pollLock_cases (s.locks.id f) w with ⟨hl, he⟩ | ⟨hl, he⟩
  · exact .inl ⟨hl, by simp only [next, poll, he]⟩
  · exact .inr ⟨hl, by simp only [next, poll, he]⟩

theorem ids_next_of_ne (ha : a.future ≠ some f) : (s.next a).locks.ids f = s.locks.ids f := by
  have ne {e : FutId} (h : some e ≠ some f) : f ≠ e := fun he => h (he ▸ rfl)
  cases a with
  | lock e => exact Function.update_of_ne (ne ha) ..
  | poll e w =>
      rcases s.next_poll e w with ⟨-, he⟩ | ⟨-, he⟩
      · rw [he]; exact Function.update_of_ne (ne ha) ..
      · rw [he]; exact Function.update_of_ne (ne ha) ..
  | dropLock e => exact Function.update_of_ne (ne ha) ..
  | tryLock =>
      rcases s.next_tryLock with ⟨-, he⟩ | ⟨-, he⟩
      · rw [he]
      · rw [he]; rfl
  | dropGuard g => rfl

theorem ids_next_of_future {e : FutId} (ha : a.future = some f) (he : e ≠ f) :
    (s.next a).locks.ids e = s.locks.ids e := by
  refine ids_next_of_ne ?_
  rw [ha]
  exact fun h => he (Option.some.inj h).symm

theorem mem_guards_next (hg : g ∈ s.guards) (ha : a ≠ .dropGuard g) : g ∈ (s.next a).guards := by
  cases a with
  | lock e => exact hg
  | poll e w =>
      rcases s.next_poll e w with ⟨-, he⟩ | ⟨-, he⟩
      · rw [he]; exact List.mem_cons_of_mem _ hg
      · rw [he]; exact hg
  | dropLock e => exact hg
  | tryLock =>
      rcases s.next_tryLock with ⟨-, he⟩ | ⟨-, he⟩
      · rw [he]; exact hg
      · rw [he]; exact List.mem_cons_of_mem _ hg
  | dropGuard e =>
      have hne : g ≠ e := fun he => ha (by rw [he])
      exact (List.mem_erase_of_ne hne).mpr hg

theorem ids_lock : (s.next (.lock f)).locks.ids f = some none := Function.update_self ..

theorem ids_poll (s : MutexState) (f : FutId) (w : WakerId) :
    ∃ l, (s.next (.poll f w)).locks.ids f = some l := by
  rcases s.next_poll f w with ⟨-, he⟩ | ⟨-, he⟩
  · rw [he]; exact ⟨_, Function.update_self ..⟩
  · rw [he]; exact ⟨_, Function.update_self ..⟩

end MutexState

/-! ### Exclusion, and nobody left behind -/

namespace MutexState

variable {s : MutexState}

structure Sound (s : MutexState) : Prop where
  fits : s.locks.Fits s.inner.waiters
  held : s.inner.locked = true → ∃ g, s.guards = [g]
  free : s.inner.locked = false → s.guards = []
  nobody : s.inner.locked = false → s.inner.waiters.IsEmpty

theorem sound_new : Sound .new where
  fits := .new
  held h := by cases h
  free _ := rfl
  nobody _ := Waiters.isEmpty_new

theorem sound_poll (h : Sound s) (f : FutId) (w : WakerId) : Sound (s.next (.poll f w)) := by
  rcases s.next_poll f w with ⟨hl, he⟩ | ⟨hl, he⟩
  · rw [he]
    refine ⟨h.fits.ready f, fun _ => ⟨s.nextGuard, ?_⟩, nofun, nofun⟩
    simp only [addGuard, h.free hl]
  · rw [he]
    exact ⟨h.fits.pending f w, fun _ => h.held hl, nofun, nofun⟩

theorem sound_next (h : Sound s) {a : MutexAct} (ha : s.Enabled a) : Sound (s.next a) := by
  cases a with
  | lock f => exact ⟨h.fits.create ha, h.held, h.free, h.nobody⟩
  | poll f w => exact sound_poll h f w
  | dropLock f =>
      simp only [next, MutexInner.dropLock_eq]
      exact ⟨h.fits.drop f, h.held, h.free, fun hl => (h.nobody hl).unpark⟩
  | tryLock =>
      rcases s.next_tryLock with ⟨hl, he⟩ | ⟨hl, he⟩
      · rw [he]; exact h
      · rw [he]
        refine ⟨h.fits, fun _ => ⟨s.nextGuard, ?_⟩, nofun, nofun⟩
        simp only [addGuard, h.free hl]
  | dropGuard g =>
      -- the guard was the only one
      have only : s.guards = [g] := by
        have hg : g ∈ s.guards := ha
        cases hl : s.inner.locked with
        | true =>
            obtain ⟨g', hg'⟩ := h.held hl
            rw [hg'] at hg ⊢
            rw [List.mem_singleton.mp hg]
        | false => rw [h.free hl] at hg; cases hg
      refine ⟨h.fits.wakeAll (List.Subset.refl _), nofun, fun _ => ?_,
        fun _ => Waiters.isEmpty_wakeAll⟩
      simp [next, only]

end MutexState

theorem reachable_mutexSound {s : MutexState} (h : mutexMachine.Reachable s) : s.Sound := by
  refine h.invariant (fun s h₀ => ?_) fun s a _ hi _ ha => MutexState.sound_next hi ha
  obtain rfl : s = .new := h₀
  exact MutexState.sound_new

/-- **The mutex is exclusive and loses no waiter.**  In every reachable state:

* there is exactly one guard when `locked` is true and none when it is false;
* when a waker is parked, `locked` is true;
* every entry of the map is under the id of exactly one live future;
* dropping a guard invokes the waker of every future whose last poll was pending and which has not
  been woken since; and while the mutex is free there is no such future. -/
theorem mutex_sound {s : MutexState} (h : mutexMachine.Reachable s) :
    (s.inner.locked = true → ∃ g, s.guards = [g]) ∧
    (s.inner.locked = false → s.guards = []) ∧
    (¬ s.inner.waiters.IsEmpty → s.inner.locked = true) ∧
    (∀ (k : ℕ) w, s.inner.waiters.map[k]? = some w → ∃! f, s.locks.ids f = some (some k)) ∧
    (∀ f w, s.locks.awaiting f = some w → s.inner.locked = true ∧ w ∈ s.inner.dropGuard.1) := by
  have hs := reachable_mutexSound h
  have parked : ¬ s.inner.waiters.IsEmpty → s.inner.locked = true := by
    intro hne
    by_contra hl
    exact hne (hs.nobody (by simpa using hl))
  refine ⟨hs.held, hs.free, parked, fun k w hk => hs.fits.existsUnique hk, fun f w hf => ?_⟩
  exact ⟨parked (hs.fits.not_isEmpty hf), hs.fits.mem_wakeAll hf⟩

/-- Future 0 gets the lock; 1 and 2 park behind it, and 1, woken once in vain, parks again. -/
def herdRun : List MutexAct :=
  [.lock 0, .poll 0 5, .lock 1, .poll 1 6, .lock 2, .poll 2 7, .dropGuard 0, .tryLock, .poll 1 8]

/-- The future that was woken and is parked again is woken by the release, although the other
one, woken with it, has not been polled since. -/
theorem herdRun_wakes :
    (mutexMachine.runList .new herdRun).locks.awaiting 1 = some 8 ∧
    (mutexMachine.runList .new herdRun).locks.awaiting 2 = none ∧
    8 ∈ (mutexMachine.runList .new herdRun).inner.dropGuard.1 := by
  have hf : mutexMachine.Follows (fun _ _ => True) .new herdRun := by decide +kernel
  have hw : (mutexMachine.runList .new herdRun).locks.awaiting 1 = some 8 := by decide +kernel
  have sound := mutex_sound (.of_follows rfl hf)
  exact ⟨hw, by decide +kernel, (sound.2.2.2.2 1 8 hw).2⟩

end RustAsync
