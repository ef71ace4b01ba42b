import RustBase.Async.Mutex

/-!
# Async — Condvar

`Condvar` of `sync.rs` over one mutex, with any number of `CondvarWait` futures and of calls of
`wait_until`, next to any other use of the mutex.

* `CondvarWait::poll` takes one lock after the other, so one poll is two steps where it takes two:
  `Init` parks (`poll`) and then drops the guard (`resume`); `Waiting` unparks (`poll`) and then
  polls its lock (`resume`).  Other threads run in between.
* A future is known by its address.  The `Lock` of a `CondvarWait`, and the `CondvarWait` of a
  `wait_until`, are parts of it, so they have its address.
* A guard is a value, which is moved: `inFuture` says which future it is in; one in no future is in
  the hands of the code that uses the mutex.
* The condition of `wait_until` is any `FnMut(&mut T) -> bool`: `call c d` is its answer, the state
  it is left in and the data it leaves.  A `wait_until` begins with its first poll; until then it is
  no more than its arguments.

`CondvarState.Sound` has one clause for a future at each point of its life (`FutureShape`); the rest
is the invariant of the mutex and `Waiters.Parks` for the wait set of the condvar.
-/

namespace RustAsync
open Support

/-! ### The futures -/

/-- `WaitState`, with the points inside a poll where another thread may run. -/
inductive WaitState where
  /-- `Init(guard)` -/
  | init (g : GuardId)
  /-- in a poll, parked; the guard is yet to be dropped -/
  | releasing (g : GuardId)
  | waiting
  /-- in a poll with `w`, unparked; `Relocking`, and the lock is yet to be polled -/
  | relock (w : WakerId)
  | relocking
  /-- still `Relocking`, and the poll has returned the guard -/
  | resolved (g : GuardId)
  deriving DecidableEq

namespace WaitState

/-- The future is not in a poll, and has not returned. -/
def pollable : WaitState → Bool
  | .init _ | .waiting | .relocking => true
  | .releasing _ | .relock _ | .resolved _ => false

def inPoll : WaitState → Bool
  | .releasing _ | .relock _ => true
  | .init _ | .waiting | .relocking | .resolved _ => false

end WaitState

structure CondvarWait where
  id : Option ℕ
  state : WaitState
  deriving DecidableEq

/-- A call of `wait_until`, with the state of its condition. -/
inductive UntilState (κ : Type*) where
  /-- it has the guard, and the condition is yet to be called -/
  | check (g : GuardId) (c : κ)
  /-- at the `await` of its `CondvarWait` -/
  | waiting (c : κ)
  deriving DecidableEq

def UntilState.isCheck {κ : Type*} : UntilState κ → Bool
  | .check _ _ => true
  | .waiting _ => false

/-! ### The machine -/

structure CondvarState (δ κ : Type*) where
  mutex : MutexState
  /-- what the mutex protects -/
  data : δ
  /-- the wait set of the condvar -/
  waiters : Waiters
  waits : FutId → Option CondvarWait
  untils : FutId → Option (UntilState κ)
  inFuture : GuardId → Option FutId
  /-- the waker that a `CondvarWait` parked, if it was not invoked since and the future did not
  leave `Waiting` -/
  awaiting : FutId → Option WakerId
  /-- whether `notify_one` took the entry of the `CondvarWait` -/
  picked : FutId → Bool
  /-- the wakers that `notify_one` and `notify_all` have invoked, in order -/
  woken : List WakerId

inductive CondvarAct (δ κ : Type*) where
  /-- a use of the mutex by other code -/
  | mutex (a : MutexAct)
  /-- the data is written through a guard -/
  | write (g : GuardId) (d : δ)
  | wait (f : FutId) (g : GuardId)
  | poll (f : FutId) (w : WakerId)
  /-- the poll of `f` goes on -/
  | resume (f : FutId)
  | drop (f : FutId)
  | notifyOne
  | notifyAll
  | waitUntil (f : FutId) (g : GuardId) (c : κ)
  /-- `wait_until` calls its condition, and returns or waits -/
  | check (f : FutId)

namespace CondvarState

variable {δ κ : Type*}

def new (d : δ) : CondvarState δ κ where
  mutex := .new
  data := d
  waiters := .new
  waits := fun _ => none
  untils := fun _ => none
  inFuture := fun _ => none
  awaiting := fun _ => none
  picked := fun _ => false
  woken := []

/-- The id of the `CondvarWait`, if it has one. -/
def id (s : CondvarState δ κ) (f : FutId) : Option ℕ := (s.waits f).bind (·.id)

/-- Neither a `CondvarWait` nor a `wait_until` is at the address. -/
def Bare (s : CondvarState δ κ) (f : FutId) : Prop :=
  (s.waits f).isNone = true ∧ (s.untils f).isNone = true

/-- The guard is in the hands of the code that uses the mutex. -/
def InHand (s : CondvarState δ κ) (g : GuardId) : Prop :=
  g ∈ s.mutex.guards ∧ s.inFuture g = none

instance (s : CondvarState δ κ) (f : FutId) : Decidable (s.Bare f) :=
  inferInstanceAs (Decidable (_ ∧ _))

instance (s : CondvarState δ κ) (g : GuardId) : Decidable (s.InHand g) :=
  inferInstanceAs (Decidable (_ ∧ _))

/-- Other code uses its own futures and guards. -/
def Foreign (s : CondvarState δ κ) : MutexAct → Prop
  | .lock f | .poll f _ | .dropLock f => s.Bare f
  | .tryLock => True
  | .dropGuard g => s.inFuture g = none

instance (s : CondvarState δ κ) : ∀ a, Decidable (s.Foreign a)
  | .lock _ | .poll _ _ | .dropLock _ => inferInstanceAs (Decidable (_ ∧ _))
  | .tryLock => inferInstanceAs (Decidable True)
  | .dropGuard _ => inferInstanceAs (Decidable (_ = _))

def Enabled (s : CondvarState δ κ) : CondvarAct δ κ → Prop
  | .mutex a => s.mutex.Enabled a ∧ s.Foreign a
  | .write g _ => s.InHand g
  | .wait f g | .waitUntil f g _ => s.InHand g ∧ s.Bare f ∧ s.mutex.locks.ids f = none
  | .poll f _ => (s.waits f).any (·.state.pollable) = true
  | .resume f => (s.waits f).any (·.state.inPoll) = true
  | .drop f => (s.waits f).any (!·.state.inPoll) = true
  | .notifyOne | .notifyAll => True
  | .check f => (s.untils f).any (·.isCheck) = true ∧ (s.waits f).isNone = true

instance (s : CondvarState δ κ) : ∀ a, Decidable (s.Enabled a)
  | .mutex _ | .wait _ _ | .waitUntil _ _ _ | .check _ => inferInstanceAs (Decidable (_ ∧ _))
  | .write _ _ => inferInstanceAs (Decidable (s.InHand _))
  | .poll _ _ | .resume _ | .drop _ => inferInstanceAs (Decidable (_ = _))
  | .notifyOne | .notifyAll => inferInstanceAs (Decidable True)

/-- `Condvar::wait`: the guard moves into the future. -/
def wait (s : CondvarState δ κ) (f : FutId) (g : GuardId) : CondvarState δ κ :=
  { s with
    waits := Function.update s.waits f (some ⟨none, .init g⟩)
    inFuture := Function.update s.inFuture g (some f)
    picked := Function.update s.picked f false }

/-- `Init`: the future parks. -/
def parkWait (s : CondvarState δ κ) (f : FutId) (id : Option ℕ) (g : GuardId) (w : WakerId) :
    CondvarState δ κ :=
  let (k, x) := s.waiters.park id w
  { s with
    waiters := x
    waits := Function.update s.waits f (some ⟨some k, .releasing g⟩)
    awaiting := Function.update s.awaiting f (some w) }

/-- A guard in the future is dropped, and the future goes to `x`. -/
def releaseWait (s : CondvarState δ κ) (f : FutId) (g : GuardId) (x : Option CondvarWait) :
    CondvarState δ κ :=
  { s with
    mutex := s.mutex.next (.dropGuard g)
    waits := Function.update s.waits f x
    inFuture := Function.update s.inFuture g none }

/-- `Waiting`: the future unparks and makes its lock. -/
def unparkWait (s : CondvarState δ κ) (f : FutId) (id : Option ℕ) (w : WakerId) :
    CondvarState δ κ :=
  { s with
    mutex := s.mutex.next (.lock f)
    waiters := s.waiters.unpark id
    waits := Function.update s.waits f (some ⟨none, .relock w⟩)
    awaiting := Function.update s.awaiting f none }

/-- The poll returns the guard; a `wait_until` at its `await` has it now. -/
def resolveWait (s : CondvarState δ κ) (f : FutId) (id : Option ℕ) (g : GuardId) :
    CondvarState δ κ :=
  let s := { s with waits := Function.update s.waits f (some ⟨id, .resolved g⟩) }
  match s.untils f with
  | some (.waiting c) =>
      { s with
        untils := Function.update s.untils f (some (.check g c))
        inFuture := Function.update s.inFuture g (some f) }
  | _ => s

/-- `Relocking`: the lock is polled. -/
def relockWait (s : CondvarState δ κ) (f : FutId) (id : Option ℕ) (w : WakerId) :
    CondvarState δ κ :=
  let (result, _) := s.mutex.inner.pollLock (s.mutex.locks.id f) w
  let g := s.mutex.nextGuard
  let s := { s with mutex := s.mutex.next (.poll f w) }
  match result with
  | .ready _ => s.resolveWait f id g
  | .pending => { s with waits := Function.update s.waits f (some ⟨id, .relocking⟩) }

def poll (s : CondvarState δ κ) (f : FutId) (w : WakerId) : CondvarState δ κ :=
  match s.waits f with
  | some ⟨id, .init g⟩ => s.parkWait f id g w
  | some ⟨id, .waiting⟩ => s.unparkWait f id w
  | some ⟨id, .relocking⟩ => s.relockWait f id w
  | _ => s

def resume (s : CondvarState δ κ) (f : FutId) : CondvarState δ κ :=
  match s.waits f with
  | some ⟨id, .releasing g⟩ => s.releaseWait f g (some ⟨id, .waiting⟩)
  | some ⟨id, .relock w⟩ => s.relockWait f id w
  | _ => s

/-- A `wait_until` at its `await` is dropped with its `CondvarWait`. -/
def dropUntil (s : CondvarState δ κ) (f : FutId) : CondvarState δ κ :=
  match s.untils f with
  | some (.waiting _) => { s with untils := Function.update s.untils f none }
  | _ => s

/-- `Drop for CondvarWait`, and of the guard or the lock in it. -/
def dropWait (s : CondvarState δ κ) (f : FutId) : CondvarState δ κ :=
  match s.waits f with
  | some ⟨_, .init g⟩ => s.releaseWait f g none
  | some ⟨id, .waiting⟩ =>
      { s with
        waiters := s.waiters.unpark id
        waits := Function.update s.waits f none
        awaiting := Function.update s.awaiting f none }
  | some ⟨_, .relocking⟩ | some ⟨_, .resolved _⟩ =>
      { s with
        mutex := s.mutex.next (.dropLock f)
        waits := Function.update s.waits f none }
  | _ => s

def notifyOne (s : CondvarState δ κ) : CondvarState δ κ :=
  let (woken, x) := s.waiters.wakeOne
  let first := s.waiters.map.keys.head?
  { s with
    waiters := x
    awaiting := stillAwaiting s.awaiting woken
    picked := fun f => s.picked f || (first.isSome && s.id f == first)
    woken := s.woken ++ woken }

def notifyAll (s : CondvarState δ κ) : CondvarState δ κ :=
  let (woken, x) := s.waiters.wakeAll
  { s with waiters := x, awaiting := stillAwaiting s.awaiting woken, woken := s.woken ++ woken }

/-- One turn of the loop of `wait_until`. -/
def check (call : κ → δ → Bool × κ × δ) (s : CondvarState δ κ) (f : FutId) : CondvarState δ κ :=
  match s.untils f with
  | some (.check g c) =>
      let (ok, c, d) := call c s.data
      if ok then
        { s with
          data := d
          untils := Function.update s.untils f none
          inFuture := Function.update s.inFuture g none }
      else
        { s with data := d, untils := Function.update s.untils f (some (.waiting c)) }.wait f g
  | _ => s

def next (call : κ → δ → Bool × κ × δ) (s : CondvarState δ κ) : CondvarAct δ κ → CondvarState δ κ
  | .mutex a => { s with mutex := s.mutex.next a }
  | .write _ d => { s with data := d }
  | .wait f g => s.wait f g
  | .poll f w => s.poll f w
  | .resume f => s.resume f
  | .drop f => (s.dropUntil f).dropWait f
  | .notifyOne => s.notifyOne
  | .notifyAll => s.notifyAll
  | .waitUntil f g c =>
      { s with
        untils := Function.update s.untils f (some (.check g c))
        inFuture := Function.update s.inFuture g (some f) }
  | .check f => s.check call f

end CondvarState

/-- The condvar and its mutex, with the condition of `wait_until`. -/
def condvarMachine {δ κ : Type*} (call : κ → δ → Bool × κ × δ) :
    Machine (CondvarState δ κ) (CondvarAct δ κ) where
  Init := fun s => ∃ d, s = .new d
  Enabled := CondvarState.Enabled
  next := CondvarState.next call

instance {δ κ : Type*} (call : κ → δ → Bool × κ × δ) :
    ∀ s a, Decidable ((condvarMachine call).Enabled s a) :=
  fun s a => inferInstanceAs (Decidable (s.Enabled a))

/-! ### The life of a future -/

/-- What is at an address, and the lock there; `has` are the guards in the future. -/
inductive FutureShape {κ : Type*} (has : GuardId → Prop) :
    Option CondvarWait → Option (UntilState κ) → Option (Option ℕ) → Prop where
  | bare {l} : FutureShape has none none l
  | init {g u} (hg : has g) (hu : ∀ g c, u ≠ some (.check g c)) :
      FutureShape has (some ⟨none, .init g⟩) u none
  | releasing {k g u} (hg : has g) (hu : ∀ g c, u ≠ some (.check g c)) :
      FutureShape has (some ⟨some k, .releasing g⟩) u none
  | waiting {k u} (hu : ∀ g c, u ≠ some (.check g c)) :
      FutureShape has (some ⟨some k, .waiting⟩) u none
  | relock {w u l} (hu : ∀ g c, u ≠ some (.check g c)) :
      FutureShape has (some ⟨none, .relock w⟩) u (some l)
  | relocking {u l} (hu : ∀ g c, u ≠ some (.check g c)) :
      FutureShape has (some ⟨none, .relocking⟩) u (some l)
  | resolved {g l} : FutureShape has (some ⟨none, .resolved g⟩) none (some l)
  | returned {g c l} (hg : has g) :
      FutureShape has (some ⟨none, .resolved g⟩) (some (.check g c)) (some l)
  | check {g c} (hg : has g) : FutureShape has none (some (.check g c)) none

namespace FutureShape

variable {κ : Type*} {has has' : GuardId → Prop} {x : Option CondvarWait}
  {u : Option (UntilState κ)} {l : Option (Option ℕ)} {id : Option ℕ} {g : GuardId} {w : WakerId}

theorem mono (h : FutureShape has x u l) (hm : ∀ g, has g → has' g) : FutureShape has' x u l := by
  cases h with
  | bare => exact .bare
  | init hg hu => exact .init (hm _ hg) hu
  | releasing hg hu => exact .releasing (hm _ hg) hu
  | waiting hu => exact .waiting hu
  | relock hu => exact .relock hu
  | relocking hu => exact .relocking hu
  | resolved => exact .resolved
  | returned hg => exact .returned (hm _ hg)
  | check hg => exact .check (hm _ hg)

theorem of_init (h : FutureShape has (some ⟨id, .init g⟩) u l) :
    id = none ∧ has g ∧ (∀ g c, u ≠ some (.check g c)) ∧ l = none := by
  cases h with
  | init hg hu => exact ⟨rfl, hg, hu, rfl⟩

theorem of_releasing (h : FutureShape has (some ⟨id, .releasing g⟩) u l) :
    (∃ k, id = some k) ∧ has g ∧ (∀ g c, u ≠ some (.check g c)) ∧ l = none := by
  cases h with
  | releasing hg hu => exact ⟨⟨_, rfl⟩, hg, hu, rfl⟩

theorem of_waiting (h : FutureShape has (some ⟨id, .waiting⟩) u l) :
    (∃ k, id = some k) ∧ (∀ g c, u ≠ some (.check g c)) ∧ l = none := by
  cases h with
  | waiting hu => exact ⟨⟨_, rfl⟩, hu, rfl⟩

theorem of_relock (h : FutureShape has (some ⟨id, .relock w⟩) u l) :
    id = none ∧ (∀ g c, u ≠ some (.check g c)) ∧ l.isSome = true := by
  cases h with
  | relock hu => exact ⟨rfl, hu, rfl⟩

theorem of_relocking (h : FutureShape has (some ⟨id, .relocking⟩) u l) :
    id = none ∧ (∀ g c, u ≠ some (.check g c)) ∧ l.isSome = true := by
  cases h with
  | relocking hu => exact ⟨rfl, hu, rfl⟩

theorem of_resolved (h : FutureShape has (some ⟨id, .resolved g⟩) u l) :
    id = none ∧ (u = none ∨ ∃ c, u = some (.check g c) ∧ has g) ∧ l.isSome = true := by
  cases h with
  | resolved => exact ⟨rfl, .inl rfl, rfl⟩
  | returned hg => exact ⟨rfl, .inr ⟨_, rfl, hg⟩, rfl⟩

theorem of_check {c : κ} (h : FutureShape has x (some (.check g c)) l) : has g := by
  cases h with
  | returned hg => exact hg
  | check hg => exact hg
  | init _ hu | releasing _ hu | waiting hu | relock hu | relocking hu =>
      exact absurd rfl (hu g c)

end FutureShape

namespace CondvarState

variable {δ κ : Type*} {s s' : CondvarState δ κ} {f : FutId} {g : GuardId}

/-- The future at `f` and its lock have a legal shape. -/
def ShapeAt (s : CondvarState δ κ) (f : FutId) : Prop :=
  FutureShape (fun g => s.inFuture g = some f) (s.waits f) (s.untils f) (s.mutex.locks.ids f)

structure Sound (s : CondvarState δ κ) : Prop where
  mutex : mutexMachine.Reachable s.mutex
  parks : s.waiters.Parks s.id s.awaiting
  live : ∀ g f, s.inFuture g = some f → g ∈ s.mutex.guards
  shape : ∀ f, s.ShapeAt f

theorem Sound.shapeAt (h : Sound s) {x : Option CondvarWait} (hw : s.waits f = x) :
    FutureShape (fun g => s.inFuture g = some f) x (s.untils f) (s.mutex.locks.ids f) :=
  hw ▸ h.shape f

/-- A step that is about the future at `f` leaves the others alone. -/
theorem Sound.shape_step (h : Sound s) (hf : s'.ShapeAt f)
    (waits : ∀ e, e ≠ f → s'.waits e = s.waits e) (untils : ∀ e, e ≠ f → s'.untils e = s.untils e)
    (ids : ∀ e, e ≠ f → s'.mutex.locks.ids e = s.mutex.locks.ids e)
    (has : ∀ g e, e ≠ f → s.inFuture g = some e → s'.inFuture g = some e) (e : FutId) :
    s'.ShapeAt e := by
  by_cases he : e = f
  · exact he ▸ hf
  · rw [ShapeAt, waits e he, untils e he, ids e he]
    exact (h.shape e).mono fun g => has g e he

theorem reachable_next {x : MutexState} {a : MutexAct} (h : mutexMachine.Reachable x)
    (ha : x.Enabled a) : mutexMachine.Reachable (x.next a) :=
  h.run (.more .refl trivial ha)

theorem id_update {x : Option CondvarWait} (h : s'.waits = Function.update s.waits f x) :
    s'.id = Function.update s.id f (x.bind (·.id)) := by
  funext e
  by_cases he : e = f
  · subst he; simp [id, h]
  · simp [id, h, he]

/-- The future moves on with the id it has. -/
theorem id_keep {x : Option CondvarWait} (h : s'.waits = Function.update s.waits f x)
    (hx : x.bind (·.id) = s.id f) : s'.id = s.id := by
  rw [id_update h, hx, Function.update_eq_self]

theorem Sound.parks_keep (h : Sound s) {x : Option CondvarWait}
    (hw : s'.waits = Function.update s.waits f x) (hx : x.bind (·.id) = s.id f)
    (waiters : s'.waiters = s.waiters) (awaiting : s'.awaiting = s.awaiting) :
    s'.waiters.Parks s'.id s'.awaiting := by
  rw [id_keep hw hx, waiters, awaiting]
  exact h.parks

theorem update_ne {α : Type*} {φ : FutId → α} {x : α} :
    ∀ e, e ≠ f → Function.update φ f x e = φ e :=
  fun _ he => Function.update_of_ne he ..

/-- The guards in other futures stay there when one in `f` moves out of it. -/
theorem has_update_none (hg : s.inFuture g = some f) (g' : GuardId) (e : FutId) (he : e ≠ f)
    (h : s.inFuture g' = some e) : Function.update s.inFuture g none g' = some e := by
  have hne : g' ≠ g := by
    rintro rfl
    exact he (Option.some.inj (h.symm.trans hg))
  rw [Function.update_of_ne hne, h]

/-- They stay there when one that was in no future moves. -/
theorem has_update_some (hg : s.inFuture g = none) (g' : GuardId) (e : FutId)
    (h : s.inFuture g' = some e) : Function.update s.inFuture g (some f) g' = some e := by
  have hne : g' ≠ g := by
    rintro rfl
    rw [hg] at h
    cases h
  rw [Function.update_of_ne hne, h]

theorem sound_new (d : δ) : Sound (κ := κ) (.new d) where
  mutex := .of_init rfl
  parks := .new
  live _ _ h := by cases h
  shape _ := .bare

theorem sound_mutex (h : Sound s) {a : MutexAct} (ha : s.mutex.Enabled a) (hs : s.Foreign a) :
    Sound { s with mutex := s.mutex.next a } where
  mutex := reachable_next h.mutex ha
  parks := h.parks
  live g e he := by
    refine MutexState.mem_guards_next (h.live g e he) ?_
    rintro rfl
    rw [show s.inFuture g = none from hs] at he
    cases he
  shape e := by
    by_cases he : a.future = some e
    · have bare : s.Bare e := by
        cases a <;> cases he <;> exact hs
      rw [ShapeAt, Option.isNone_iff_eq_none.mp bare.1, Option.isNone_iff_eq_none.mp bare.2]
      exact .bare
    · have := h.shape e
      rwa [ShapeAt, ← MutexState.ids_next_of_ne he] at this

/-- A live guard moves into a future. -/
theorem live_update {guards : List GuardId} (live : ∀ g e, s.inFuture g = some e → g ∈ guards)
    (hg : g ∈ guards) (g' : GuardId) (e : FutId)
    (he : Function.update s.inFuture g (some f) g' = some e) : g' ∈ guards := by
  rcases update_some_eq_some.mp he with ⟨rfl, -⟩ | ⟨-, he⟩
  · exact hg
  · exact live g' e he

/-- A guard is waited with, by other code or by the loop of `wait_until`. -/
theorem sound_wait (h : Sound s) (hw : s.waits f = none) (hl : s.mutex.locks.ids f = none)
    (hg : g ∈ s.mutex.guards)
    (has : ∀ g' e, e ≠ f → s.inFuture g' = some e →
      Function.update s.inFuture g (some f) g' = some e)
    (d : δ) {u : Option (UntilState κ)} (hu : ∀ g c, u ≠ some (.check g c)) :
    Sound ({ s with data := d, untils := Function.update s.untils f u }.wait f g) where
  mutex := h.mutex
  parks := h.parks_keep (f := f) rfl (by simp [id, hw]) rfl rfl
  live := live_update h.live hg
  shape := by
    refine h.shape_step (f := f) ?_ update_ne update_ne (fun _ _ => rfl) has
    simp only [ShapeAt, wait, Function.update_self, hl]
    exact .init (Function.update_self ..) hu

theorem sound_parkWait (h : Sound s) {id : Option ℕ} (hw : s.waits f = some ⟨id, .init g⟩)
    (w : WakerId) : Sound (s.parkWait f id g w) where
  mutex := h.mutex
  parks := by
    have same : s.id f = id := by simp [CondvarState.id, hw]
    rw [id_update (s := s) rfl]
    exact same ▸ h.parks.park f w
  live := h.live
  shape := by
    refine h.shape_step (f := f) ?_ update_ne (fun _ _ => rfl) (fun _ _ => rfl) fun _ _ _ h => h
    obtain ⟨-, hg, hu, hl⟩ := (h.shapeAt hw).of_init
    simp only [ShapeAt, parkWait, Function.update_self, hl]
    exact .releasing hg hu

/-- A guard in the future is dropped. -/
theorem sound_releaseWait (h : Sound s) (hg : s.inFuture g = some f) {x : Option CondvarWait}
    (hx : x.bind (·.id) = s.id f)
    (hf : FutureShape (fun _ => False) x (s.untils f) (s.mutex.locks.ids f)) :
    Sound (s.releaseWait f g x) where
  mutex := reachable_next (a := .dropGuard g) h.mutex (h.live g f hg)
  parks := h.parks_keep rfl hx rfl rfl
  live g' e he := by
    obtain ⟨hne, he⟩ := update_none_eq_some.mp he
    refine MutexState.mem_guards_next (h.live g' e he) fun ha => hne ?_
    cases ha
    rfl
  shape := by
    refine h.shape_step (f := f) ?_ update_ne (fun _ _ => rfl) (fun _ _ => rfl)
      (has_update_none hg)
    simp only [ShapeAt, releaseWait, Function.update_self]
    exact hf.mono fun _ => False.elim

theorem sound_unparkWait (h : Sound s) {id : Option ℕ} (hw : s.waits f = some ⟨id, .waiting⟩)
    (w : WakerId) : Sound (s.unparkWait f id w) := by
  obtain ⟨-, hu, hl⟩ := (h.shapeAt hw).of_waiting
  refine ⟨reachable_next (a := .lock f) h.mutex hl, ?_, h.live, ?_⟩
  · have same : s.id f = id := by simp [CondvarState.id, hw]
    rw [id_update (s := s) rfl]
    exact same ▸ h.parks.unpark f
  · refine h.shape_step (f := f) ?_ update_ne (fun _ _ => rfl)
      (fun e he => MutexState.ids_next_of_future rfl he) fun _ _ _ h => h
    simp only [ShapeAt, unparkWait, Function.update_self, MutexState.ids_lock]
    exact .relock hu

/-- What a poll of the lock does: the future has the guard, or is parked behind another one. -/
theorem relockWait_cases (s : CondvarState δ κ) (f : FutId) (id : Option ℕ) (w : WakerId) :
    (s.mutex.inner.locked = false ∧ s.relockWait f id w =
      { s with mutex := s.mutex.next (.poll f w) }.resolveWait f id s.mutex.nextGuard) ∨
    (s.mutex.inner.locked = true ∧ s.relockWait f id w =
      { s with
        mutex := s.mutex.next (.poll f w)
        waits := Function.update s.waits f (some ⟨id, .relocking⟩) }) := by
  rcases s.mutex.inner.pollLock_cases (s.mutex.locks.id f) w with ⟨hl, he⟩ | ⟨hl, he⟩
  · exact .inl ⟨hl, by simp only [relockWait, he]⟩
  · exact .inr ⟨hl, by simp only [relockWait, he]⟩

/-- While the mutex is free no guard is in a future. -/
theorem Sound.inFuture_of_free (h : Sound s) (hl : s.mutex.inner.locked = false) (g : GuardId) :
    s.inFuture g = none := by
  by_contra hne
  obtain ⟨e, he⟩ := Option.ne_none_iff_exists'.mp hne
  have hg := h.live g e he
  rw [(reachable_mutexSound h.mutex).free hl] at hg
  cases hg

/-- The guard a successful poll makes. -/
theorem Sound.guards_poll (h : Sound s) (hl : s.mutex.inner.locked = false) (w : WakerId) :
    (s.mutex.next (.poll f w)).guards = [s.mutex.nextGuard] ∧
    (s.mutex.next (.poll f w)).inner.locked = true := by
  rcases s.mutex.next_poll f w with ⟨-, he⟩ | ⟨hl', -⟩
  · rw [he]
    simp only [MutexState.addGuard, (reachable_mutexSound h.mutex).free hl, and_self]
  · rw [hl] at hl'; cases hl'

theorem Sound.live_poll (h : Sound s) (w : WakerId) (g : GuardId) (e : FutId)
    (he : s.inFuture g = some e) : g ∈ (s.mutex.next (.poll f w)).guards :=
  MutexState.mem_guards_next (h.live g e he) (by simp)

/-- The lock is free: the future returns the guard that its poll makes. -/
theorem sound_resolveWait (h : Sound s) (hid : s.id f = none)
    (hu : ∀ g c, s.untils f ≠ some (.check g c)) (hl : (s.mutex.locks.ids f).isSome = true)
    (hf : s.mutex.inner.locked = false) (w : WakerId) :
    Sound ({ s with mutex := s.mutex.next (.poll f w) }.resolveWait f none s.mutex.nextGuard) := by
  have mutex := reachable_next (a := .poll f w) h.mutex hl
  obtain ⟨l, hids⟩ := s.mutex.ids_poll f w
  rw [resolveWait]
  cases hu' : s.untils f with
  | none =>
      refine ⟨mutex, h.parks_keep (f := f) rfl hid.symm rfl rfl, h.live_poll w, ?_⟩
      refine h.shape_step (f := f) ?_ update_ne (fun _ _ => rfl)
        (fun e he => MutexState.ids_next_of_future rfl he) fun _ _ _ h => h
      simp only [ShapeAt, Function.update_self, hu', hids]
      exact .resolved
  | some u =>
      cases u with
      | check g c => exact absurd hu' (hu g c)
      | waiting c =>
          refine ⟨mutex, h.parks_keep (f := f) rfl hid.symm rfl rfl,
            live_update (h.live_poll w) ?_, ?_⟩
          · rw [(h.guards_poll hf w).1]; exact List.mem_singleton_self _
          · refine h.shape_step (f := f) ?_ update_ne update_ne
              (fun e he => MutexState.ids_next_of_future rfl he)
              fun g e _ he => has_update_some (h.inFuture_of_free hf _) g e he
            simp only [ShapeAt, Function.update_self, hids]
            exact .returned (Function.update_self ..)

theorem sound_relockWait (h : Sound s) {id : Option ℕ} (hid : s.id f = id)
    (hs : id = none ∧ (∀ g c, s.untils f ≠ some (.check g c)) ∧
      (s.mutex.locks.ids f).isSome = true) (w : WakerId) : Sound (s.relockWait f id w) := by
  obtain ⟨rfl, hu, hl⟩ := hs
  rcases s.relockWait_cases f none w with ⟨hf, he⟩ | ⟨-, he⟩
  · rw [he]; exact sound_resolveWait h hid hu hl hf w
  · rw [he]
    obtain ⟨l, hids⟩ := s.mutex.ids_poll f w
    refine ⟨reachable_next (a := .poll f w) h.mutex hl,
      h.parks_keep (f := f) rfl hid.symm rfl rfl, h.live_poll w, ?_⟩
    refine h.shape_step (f := f) ?_ update_ne (fun _ _ => rfl)
      (fun e he => MutexState.ids_next_of_future rfl he) fun _ _ _ h => h
    simp only [ShapeAt, Function.update_self, hids]
    exact .relocking hu

theorem dropUntil_cases (s : CondvarState δ κ) (f : FutId) :
    (∃ c, s.untils f = some (.waiting c) ∧
      s.dropUntil f = { s with untils := Function.update s.untils f none }) ∨
    ((∀ c, s.untils f ≠ some (.waiting c)) ∧ s.dropUntil f = s) := by
  cases hu : s.untils f with
  | none => exact .inr ⟨by simp, by simp only [dropUntil, hu]⟩
  | some u =>
      cases u with
      | check g c => exact .inr ⟨by simp, by simp only [dropUntil, hu]⟩
      | waiting c => exact .inl ⟨c, rfl, by simp only [dropUntil, hu]⟩

theorem waits_dropUntil : (s.dropUntil f).waits = s.waits := by
  rcases s.dropUntil_cases f with ⟨c, -, he⟩ | ⟨-, he⟩ <;> rw [he]

theorem untils_dropUntil (c : κ) : (s.dropUntil f).untils f ≠ some (.waiting c) := by
  rcases s.dropUntil_cases f with ⟨c', -, he⟩ | ⟨hu, he⟩
  · rw [he]; simp
  · rw [he]; exact hu c

theorem sound_dropUntil (h : Sound s) (hw : s.waits f ≠ none) : Sound (s.dropUntil f) := by
  rcases s.dropUntil_cases f with ⟨c, hu, he⟩ | ⟨-, he⟩
  · rw [he]
    refine ⟨h.mutex, h.parks, h.live, ?_⟩
    refine h.shape_step (f := f) ?_ (fun _ _ => rfl) update_ne (fun _ _ => rfl) fun _ _ _ h => h
    have hs := h.shape f
    rw [ShapeAt, hu] at hs
    simp only [ShapeAt, Function.update_self]
    generalize s.waits f = x at hw hs
    generalize s.mutex.locks.ids f = l at hs
    cases hs with
    | init hg _ => exact .init hg (by simp)
    | releasing hg _ => exact .releasing hg (by simp)
    | waiting _ => exact .waiting (by simp)
    | relock _ => exact .relock (by simp)
    | relocking _ => exact .relocking (by simp)
  · rw [he]; exact h

/-- A future at which there is no `wait_until` with its guard, and none at its `await`. -/
theorem untils_eq_none (hc : ∀ g c, s.untils f ≠ some (.check g c))
    (hu : ∀ c, s.untils f ≠ some (.waiting c)) : s.untils f = none := by
  cases hu' : s.untils f with
  | none => rfl
  | some u =>
      cases u with
      | check g c => exact absurd hu' (hc g c)
      | waiting c => exact absurd hu' (hu c)

/-- The future is dropped with its lock. -/
theorem sound_dropLock (h : Sound s) (hid : s.id f = none)
    (hl : (s.mutex.locks.ids f).isSome = true)
    (hf : FutureShape (fun g => s.inFuture g = some f) none (s.untils f) none) :
    Sound { s with
      mutex := s.mutex.next (.dropLock f)
      waits := Function.update s.waits f none } where
  mutex := reachable_next (a := .dropLock f) h.mutex hl
  parks := h.parks_keep (f := f) rfl hid.symm rfl rfl
  live := h.live
  shape := by
    refine h.shape_step (f := f) ?_ update_ne (fun _ _ => rfl) update_ne fun _ _ _ h => h
    simpa only [ShapeAt, Function.update_self, MutexState.next, Futures.drop] using hf

theorem sound_dropWait (h : Sound s) (hu : ∀ c, s.untils f ≠ some (.waiting c))
    {x : CondvarWait} (hw : s.waits f = some x) (hp : x.state.inPoll = false) :
    Sound (s.dropWait f) := by
  have hid : s.id f = x.id := by simp [id, hw]
  obtain ⟨id, state⟩ := x
  cases state with
  | init g =>
      obtain ⟨rfl, hg, hc, -⟩ := (h.shapeAt hw).of_init
      simp only [dropWait, hw]
      refine sound_releaseWait h hg hid.symm ?_
      rw [untils_eq_none hc hu]; exact .bare
  | waiting =>
      obtain ⟨-, hc, -⟩ := (h.shapeAt hw).of_waiting
      simp only [dropWait, hw]
      refine ⟨h.mutex, ?_, h.live, ?_⟩
      · have hid : s.id f = id := hid
        rw [id_update (s := s) rfl]
        exact hid ▸ h.parks.unpark f
      · refine h.shape_step (f := f) ?_ update_ne (fun _ _ => rfl) (fun _ _ => rfl)
          fun _ _ _ h => h
        simp only [ShapeAt, Function.update_self, untils_eq_none hc hu]
        exact .bare
  | relocking =>
      obtain ⟨rfl, hc, hl⟩ := (h.shapeAt hw).of_relocking
      simp only [dropWait, hw]
      refine sound_dropLock h hid hl ?_
      rw [untils_eq_none hc hu]; exact .bare
  | resolved g =>
      obtain ⟨rfl, hr, hl⟩ := (h.shapeAt hw).of_resolved
      simp only [dropWait, hw]
      refine sound_dropLock h hid hl ?_
      rcases hr with hr | ⟨c, hr, hg⟩
      · rw [hr]; exact .bare
      · rw [hr]; exact .check hg
  | releasing g => cases hp
  | relock w => cases hp

theorem sound_poll (h : Sound s) {x : CondvarWait} (hw : s.waits f = some x)
    (hp : x.state.pollable = true) (w : WakerId) : Sound (s.poll f w) := by
  obtain ⟨id, state⟩ := x
  cases state with
  | init g => simp only [poll, hw]; exact sound_parkWait h hw w
  | waiting => simp only [poll, hw]; exact sound_unparkWait h hw w
  | relocking =>
      simp only [poll, hw]
      exact sound_relockWait h (by simp [CondvarState.id, hw]) (h.shapeAt hw).of_relocking w
  | releasing g | relock w | resolved g => cases hp

theorem sound_resume (h : Sound s) {x : CondvarWait} (hw : s.waits f = some x)
    (hp : x.state.inPoll = true) : Sound (s.resume f) := by
  obtain ⟨id, state⟩ := x
  cases state with
  | releasing g =>
      obtain ⟨⟨k, rfl⟩, hg, hu, hl⟩ := (h.shapeAt hw).of_releasing
      simp only [resume, hw]
      refine sound_releaseWait h hg (by simp [CondvarState.id, hw]) ?_
      rw [hl]; exact .waiting hu
  | relock w =>
      simp only [resume, hw]
      exact sound_relockWait h (by simp [CondvarState.id, hw]) (h.shapeAt hw).of_relock w
  | init g | waiting | relocking | resolved g => cases hp

theorem sound_notifyOne (h : Sound s) : Sound s.notifyOne :=
  ⟨h.mutex, h.parks.wakeOne, h.live, h.shape⟩

theorem sound_notifyAll (h : Sound s) : Sound s.notifyAll :=
  ⟨h.mutex, h.parks.wakeAll (List.Subset.refl _), h.live, h.shape⟩

theorem Bare.waits (h : s.Bare f) : s.waits f = none := Option.isNone_iff_eq_none.mp h.1

theorem Bare.untils (h : s.Bare f) : s.untils f = none := Option.isNone_iff_eq_none.mp h.2

theorem sound_waitUntil (h : Sound s) (hg : s.InHand g) (hb : s.Bare f)
    (hl : s.mutex.locks.ids f = none) (c : κ) :
    Sound { s with
      untils := Function.update s.untils f (some (.check g c))
      inFuture := Function.update s.inFuture g (some f) } where
  mutex := h.mutex
  parks := h.parks
  live := live_update h.live hg.1
  shape := by
    refine h.shape_step (f := f) ?_ (fun _ _ => rfl) update_ne (fun _ _ => rfl)
      fun g' e _ he => has_update_some hg.2 g' e he
    simp only [ShapeAt, Function.update_self, hb.waits, hl]
    exact .check (Function.update_self ..)

/-- What a turn of the loop does: it returns the guard, or waits with it. -/
theorem check_cases (call : κ → δ → Bool × κ × δ) {c : κ} (hu : s.untils f = some (.check g c)) :
    ((call c s.data).1 = true ∧ s.check call f =
      { s with
        data := (call c s.data).2.2
        untils := Function.update s.untils f none
        inFuture := Function.update s.inFuture g none }) ∨
    ((call c s.data).1 = false ∧ s.check call f =
      { s with
        data := (call c s.data).2.2
        untils := Function.update s.untils f (some (.waiting (call c s.data).2.1)) }.wait f g) := by
  cases hc : (call c s.data).1 with
  | true => exact .inl ⟨rfl, by simp [check, hu, hc]⟩
  | false => exact .inr ⟨rfl, by simp [check, hu, hc]⟩

theorem sound_check (call : κ → δ → Bool × κ × δ) (h : Sound s) {c : κ}
    (hu : s.untils f = some (.check g c)) (hw : s.waits f = none) : Sound (s.check call f) := by
  have hs := h.shapeAt hw
  rw [hu] at hs
  obtain ⟨hg, hl⟩ : s.inFuture g = some f ∧ s.mutex.locks.ids f = none := by
    generalize s.mutex.locks.ids f = l at hs
    cases hs with
    | check hg => exact ⟨hg, rfl⟩
  rcases check_cases call hu with ⟨-, he⟩ | ⟨-, he⟩
  · rw [he]
    refine ⟨h.mutex, h.parks, fun g' e he => h.live g' e (update_none_eq_some.mp he).2, ?_⟩
    · refine h.shape_step (f := f) ?_ (fun _ _ => rfl) update_ne (fun _ _ => rfl)
        (has_update_none hg)
      simp only [ShapeAt, Function.update_self, hw]
      exact .bare
  · rw [he]
    refine sound_wait h hw hl (h.live g f hg) (fun g' e hne he' => ?_) _ (by simp)
    -- the guard was in the future at `f` already
    have hg' : g' ≠ g := by
      rintro rfl
      exact hne (Option.some.inj (he'.symm.trans hg))
    rw [Function.update_of_ne hg', he']

theorem sound_next (call : κ → δ → Bool × κ × δ) (h : Sound s) {a : CondvarAct δ κ}
    (ha : s.Enabled a) : Sound (s.next call a) := by
  cases a with
  | mutex a => exact sound_mutex h ha.1 ha.2
  | write g d => exact ⟨h.mutex, h.parks, h.live, h.shape⟩
  | wait f g =>
      obtain ⟨hg, hb, hl⟩ := ha
      have := sound_wait h hb.waits hl hg.1 (fun g' e _ he => has_update_some hg.2 g' e he) s.data
        (u := s.untils f) (by simp [hb.untils])
      rwa [Function.update_eq_self] at this
  | poll f w =>
      obtain ⟨x, hw, hp⟩ := (Option.any_eq_true ..).mp ha
      exact sound_poll h hw hp w
  | resume f =>
      obtain ⟨x, hw, hp⟩ := (Option.any_eq_true ..).mp ha
      exact sound_resume h hw hp
  | drop f =>
      obtain ⟨x, hw, hp⟩ := (Option.any_eq_true ..).mp ha
      have hd : Sound (s.dropUntil f) := sound_dropUntil h (by simp [hw])
      exact sound_dropWait hd untils_dropUntil (by rw [waits_dropUntil, hw]) (by simpa using hp)
  | notifyOne => exact sound_notifyOne h
  | notifyAll => exact sound_notifyAll h
  | waitUntil f g c =>
      obtain ⟨hg, hb, hl⟩ := ha
      exact sound_waitUntil h hg hb hl c
  | check f =>
      obtain ⟨u, hu, hc⟩ := (Option.any_eq_true ..).mp ha.1
      cases u with
      | check g c => exact sound_check call h hu (Option.isNone_iff_eq_none.mp ha.2)
      | waiting c => cases hc

end CondvarState

theorem reachable_condvarSound {δ κ : Type*} {call : κ → δ → Bool × κ × δ} {s : CondvarState δ κ}
    (h : (condvarMachine call).Reachable s) : s.Sound := by
  refine h.invariant (fun s h₀ => ?_) fun s a _ hi _ ha => CondvarState.sound_next call hi ha
  obtain ⟨d, rfl⟩ := h₀
  exact CondvarState.sound_new d

end RustAsync
