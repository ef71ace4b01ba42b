import RustBase.Support.Machine

/-!
# Io — who owns an `IoTaskRunner`

The strong references to a runner that `with_pump_impl` made, and what ends its IO thread.  Threads
clone, pass on and drop handles and call `shutdown`; tasks capture none, but may take one from
`IoTaskRunner::current` while they run.  The IO thread has references of its own:

* `runner_for_thread`, which the spawned closure captured, until the closure returns;
* the one in its `CurrentDefaultHandle`, until `drive` returns;
* the delegate that `run` was called with, until `run` returns.

`Drop for IoTaskRunner` runs when the last of all these goes, on the thread that held it.  `run`
returns after the pump was told to quit, or by an error of its own.

* **`told_to_quit_iff`**: once the handles outside are gone, the pump has been told to quit if and
  only if somebody had called `shutdown`, or the loop had failed and the IO thread let go of its
  references; if not, it stays so and the thread never ends.
* `droppedRun_leaks`: a runner whose only handle is dropped.
-/

namespace RustIo
open Support

/-- Who holds a handle: a thread of the process, or code that runs on the IO thread. -/
inductive Holder where
  | thread (t : ℕ)
  | io
  deriving DecidableEq

/-- A thread in `IoTaskRunner::shutdown`. -/
inductive ShutdownPhase where
  /-- the store to `shutdown` is next -/
  | store
  /-- `pump.quit()` is next -/
  | quit
  /-- taking `thread_handle` is next -/
  | take
  | join (handle : Bool)
  deriving DecidableEq

/-- The IO thread, by the references of its own that it holds. -/
inductive DrivePhase where
  /-- has `runner_for_thread`; `drive` is next -/
  | spawned
  /-- has set up its `CurrentDefaultHandle`; `pump.run` is next -/
  | driving
  | running
  /-- the loop of `run` was left; dropping the delegate is next -/
  | ran
  /-- dropping the `CurrentDefaultHandle` is next -/
  | undelegated
  /-- dropping `runner_for_thread` is next -/
  | unbound
  | released
  deriving DecidableEq

/-- The references the IO thread holds of its own. -/
def DrivePhase.refs : DrivePhase → ℕ
  | .spawned => 1
  | .driving => 2
  | .running | .ran => 3
  | .undelegated => 2
  | .unbound => 1
  | .released => 0

/-- `run` has returned, or is about to. -/
def DrivePhase.pastRun : DrivePhase → Bool
  | .spawned | .driving | .running => false
  | _ => true

/-- `Drop for IoTaskRunner`. -/
inductive DropPhase where
  | notYet
  /-- taking `thread_handle` is next -/
  | take
  /-- `pump.quit()` is next -/
  | quit
  | join
  | done
  deriving DecidableEq

/-- The `JoinHandle` has been taken. -/
def DropPhase.pastTake : DropPhase → Bool
  | .notYet | .take => false
  | _ => true

structure OwnState where
  /-- `with_pump_impl` has not returned -/
  constructing : Bool
  handles : List Holder
  /-- the calls of `shutdown` that are under way -/
  calls : List (Holder × ShutdownPhase)
  threadHandle : Bool
  shutdown : Bool
  /-- the pump has been told to quit -/
  quit : Bool
  io : DrivePhase
  dropping : DropPhase
  dropper : Option Holder
  /-- some call of `shutdown` told the pump to quit -/
  shutdownCalled : Bool
  /-- the loop of `run` was left by an error -/
  failed : Bool

inductive OwnAct where
  /-- `with_pump_impl` stores the `JoinHandle` and returns -/
  | storeHandle
  | clone (o : Holder)
  | send (o : Holder) (t : ℕ)
  /-- `IoTaskRunner::current()` in a task or a callback -/
  | current
  | drop (o : Holder)
  | shutdown (o : Holder)
  /-- the next step of a call of `shutdown` -/
  | call (o : Holder) (p : ShutdownPhase)
  | drive
  | run
  | runReturns
  | runFails
  | dropDelegate
  | dropDefault
  | dropCaptured
  | dropTake
  | dropQuit
  | dropJoin
  deriving DecidableEq

namespace OwnState

/-- The `JoinHandle` is about to be stored; the thread runs already. -/
def new : OwnState where
  constructing := true
  handles := [.thread 0]
  calls := []
  threadHandle := false
  shutdown := false
  quit := false
  io := .spawned
  dropping := .notYet
  dropper := none
  shutdownCalled := false
  failed := false

/-- The holder is not in a call of `shutdown`. -/
def Free (s : OwnState) (o : Holder) : Prop := ∀ x ∈ s.calls, x.1 ≠ o

instance (s : OwnState) (o : Holder) : Decidable (s.Free o) :=
  inferInstanceAs (Decidable (∀ x ∈ s.calls, _))

/-- The holder has a handle, and may use it. -/
def Acts (s : OwnState) (o : Holder) : Prop :=
  o ∈ s.handles ∧ s.Free o ∧ s.constructing = false

instance (s : OwnState) (o : Holder) : Decidable (s.Acts o) :=
  inferInstanceAs (Decidable (_ ∧ _ ∧ _))

/-- `Arc::strong_count`. -/
def strong (s : OwnState) : ℕ := s.handles.length + s.io.refs

/-- A join of the IO thread returns: not if it is the IO thread that joins. -/
def Joins (s : OwnState) (o : Holder) : Prop :=
  s.io = .released ∧ o ≠ .io ∧ (s.dropper = some .io → s.dropping = .done)

instance (s : OwnState) (o : Holder) : Decidable (s.Joins o) :=
  inferInstanceAs (Decidable (_ ∧ _ ∧ (_ → _)))

def Enabled (s : OwnState) : OwnAct → Prop
  | .storeHandle => s.constructing = true
  | .clone o | .send o _ | .drop o | .shutdown o => s.Acts o
  | .current => s.io = .running ∧ s.Free .io
  | .call o p => (o, p) ∈ s.calls ∧ (p = .join true → s.Joins o)
  | .drive => s.io = .spawned
  | .run => s.io = .driving
  | .runReturns => s.io = .running ∧ s.Free .io ∧ s.quit = true
  | .runFails => s.io = .running ∧ s.Free .io
  | .dropDelegate => s.io = .ran
  | .dropDefault => s.io = .undelegated
  | .dropCaptured => s.io = .unbound
  | .dropTake => s.dropping = .take
  | .dropQuit => s.dropping = .quit
  | .dropJoin => s.dropping = .join ∧ ∃ o, s.dropper = some o ∧ s.Joins o

instance (s : OwnState) : ∀ a, Decidable (s.Enabled a)
  | .storeHandle | .drive | .run | .dropDelegate | .dropDefault | .dropCaptured | .dropTake
  | .dropQuit => inferInstanceAs (Decidable (_ = _))
  | .clone _ | .send _ _ | .drop _ | .shutdown _ => inferInstanceAs (Decidable (s.Acts _))
  | .current | .runFails => inferInstanceAs (Decidable (_ ∧ _))
  | .call _ _ => inferInstanceAs (Decidable (_ ∧ (_ → _)))
  | .runReturns => inferInstanceAs (Decidable (_ ∧ _ ∧ _))
  | .dropJoin => match h : s.dropper with
      | none => isFalse fun ⟨_, o, ho, _⟩ => by rw [h] at ho; cases ho
      | some o => decidable_of_iff (s.dropping = .join ∧ s.Joins o)
          ⟨fun ⟨h₁, h₂⟩ => ⟨h₁, o, h, h₂⟩,
            fun ⟨h₁, o', ho, h₂⟩ => ⟨h₁, by rw [h] at ho; cases ho; exact h₂⟩⟩

/-- The reference that leaves the state `s` was `o`'s: `Drop` starts if it was the last. -/
def released (s : OwnState) (o : Holder) : OwnState :=
  if s.strong = 0 then { s with dropping := .take, dropper := some o } else s

/-- The call of `o` goes on to `p`. -/
def setCall (s : OwnState) (o : Holder) (p : ShutdownPhase) : OwnState :=
  { s with calls := (o, p) :: s.calls.filter fun x => x.1 ≠ o }

def call (s : OwnState) (o : Holder) : ShutdownPhase → OwnState
  | .store => { s with shutdown := true }.setCall o .quit
  | .quit => { s with quit := true, shutdownCalled := true }.setCall o .take
  | .take => { s with threadHandle := false }.setCall o (.join s.threadHandle)
  | .join _ => { s with calls := s.calls.filter fun x => x.1 ≠ o }

def next (s : OwnState) : OwnAct → OwnState
  | .storeHandle => { s with constructing := false, threadHandle := true }
  | .clone o => { s with handles := o :: s.handles }
  | .send o t => { s with handles := .thread t :: s.handles.erase o }
  | .current => { s with handles := .io :: s.handles }
  | .drop o => { s with handles := s.handles.erase o }.released o
  | .shutdown o => { s with calls := (o, .store) :: s.calls }
  | .call o p => s.call o p
  | .drive => { s with io := .driving }
  | .run => { s with io := .running }
  | .runReturns => { s with io := .ran }
  | .runFails => { s with io := .ran, failed := true }
  | .dropDelegate => { s with io := .undelegated }
  | .dropDefault => { s with io := .unbound }
  | .dropCaptured => { s with io := .released }.released .io
  | .dropTake => { s with
      threadHandle := false
      dropping := if s.threadHandle then .quit else .done }
  | .dropQuit => { s with quit := true, dropping := .join }
  | .dropJoin => { s with dropping := .done }

end OwnState

/-- A runner from its construction on. -/
def ownMachine : Machine OwnState OwnAct where
  Init := fun s => s = .new
  Enabled := OwnState.Enabled
  next := OwnState.next

instance : ∀ s a, Decidable (ownMachine.Enabled s a) :=
  fun s a => inferInstanceAs (Decidable (s.Enabled a))

namespace OwnState

variable {s : OwnState}

/-- The handles held outside the IO thread. -/
def outside (s : OwnState) : List Holder := s.handles.filter (· ≠ .io)

/-- No `Drop for IoTaskRunner` is under way. -/
def DropsCompleted (s : OwnState) : Prop := s.dropping = .notYet ∨ s.dropping = .done

/-- The pump is dropped with the runner, which closes its epoll fd and its eventfd. -/
def fdsOpen (s : OwnState) : Bool := s.dropping != .done

/-- What ties the references, the pump's flag and the calls together. -/
structure Owned (s : OwnState) : Prop where
  making : s.constructing = true → .thread 0 ∈ s.handles
  last : s.strong = 0 ↔ s.dropping ≠ .notYet
  told : s.quit = true → s.shutdownCalled = true ∨ s.dropping = .join ∨ s.dropping = .done
  called : s.shutdownCalled = true → s.quit = true
  left : s.io.pastRun = true → s.shutdownCalled = true ∨ s.failed = true
  taken : s.threadHandle = false →
    s.constructing = true ∨ s.shutdownCalled = true ∨ s.dropping.pastTake = true
  dropQuits : s.dropping = .join ∨ s.dropping = .done → s.quit = true
  phase : ∀ o p, (o, p) ∈ s.calls → p = .take → s.shutdownCalled = true
  callers : ∀ x ∈ s.calls, x.1 ∈ s.handles ∧ s.constructing = false

theorem owned_new : Owned .new := by
  refine ⟨fun _ => .head _, by decide, ?_, ?_, ?_, fun _ => .inl rfl, ?_, ?_, ?_⟩ <;> simp [new]
  · decide

namespace Owned

theorem not_dropping (h : Owned s) (hs : 0 < s.strong) : s.dropping = .notYet := by
  by_contra hd
  exact Nat.ne_of_gt hs (h.last.mpr hd)

theorem strong_pos_of_mem {o : Holder} (ho : o ∈ s.handles) : 0 < s.strong :=
  Nat.add_pos_left (List.length_pos_of_mem ho) _

theorem strong_pos_of_refs (hr : 0 < s.io.refs) : 0 < s.strong := Nat.add_pos_right _ hr

/-- A reference goes; if it was the last, `Drop` starts. -/
theorem released (h : Owned s) {l : List Holder} {x : DrivePhase} {o : Holder}
    (hs : 0 < s.strong) (hm : s.constructing = true → .thread 0 ∈ l)
    (hl : x.pastRun = true → s.shutdownCalled = true ∨ s.failed = true)
    (hc : ∀ y ∈ s.calls, y.1 ∈ l) :
    Owned ({ s with handles := l, io := x }.released o) := by
  have notYet := h.not_dropping hs
  have told : s.quit = true → s.shutdownCalled = true := fun hq => by
    rcases h.told hq with hq | hq | hq
    · exact hq
    · rw [notYet] at hq; cases hq
    · rw [notYet] at hq; cases hq
  have taken : s.threadHandle = false → s.constructing = true ∨ s.shutdownCalled = true :=
    fun ht => by
      rcases h.taken ht with ht | ht | ht
      · exact .inl ht
      · exact .inr ht
      · rw [notYet] at ht; cases ht
  unfold OwnState.released
  split
  · rename_i h₀
    exact ⟨hm, iff_of_true h₀ nofun, fun hq => .inl (told hq), h.called, hl,
      fun ht => (taken ht).imp_right .inl, nofun, h.phase,
      fun y hy => ⟨hc y hy, (h.callers y hy).2⟩⟩
  · rename_i h₀
    exact ⟨hm, iff_of_false h₀ (not_not_intro notYet), h.told, h.called, hl, h.taken, h.dropQuits,
      h.phase, fun y hy => ⟨hc y hy, (h.callers y hy).2⟩⟩

/-- Handles and references of the IO thread come, or go while others stay. -/
theorem hold (h : Owned s) {l : List Holder} {x : DrivePhase} (hs : 0 < s.strong)
    (hp : 0 < l.length + x.refs) (hm : s.constructing = true → .thread 0 ∈ l)
    (hl : x.pastRun = true → s.shutdownCalled = true ∨ s.failed = true)
    (hc : ∀ y ∈ s.calls, y.1 ∈ l) : Owned { s with handles := l, io := x } := by
  have notYet := h.not_dropping hs
  exact ⟨hm, iff_of_false (Nat.ne_of_gt hp) (not_not_intro notYet), h.told, h.called, hl, h.taken,
    h.dropQuits, h.phase, fun y hy => ⟨hc y hy, (h.callers y hy).2⟩⟩

theorem call (h : Owned s) {o : Holder} {p : ShutdownPhase} (ha : (o, p) ∈ s.calls) :
    Owned (s.call o p) := by
  have others : ∀ {y q}, (y, q) ∈ s.calls.filter (fun x => x.1 ≠ o) → (y, q) ∈ s.calls :=
    List.mem_of_mem_filter
  have pos := strong_pos_of_mem (h.callers _ ha).1
  have notYet := h.not_dropping pos
  have callers : ∀ {q}, ∀ x ∈ (o, q) :: s.calls.filter (fun x => x.1 ≠ o),
      x.1 ∈ s.handles ∧ s.constructing = false := by
    intro q x hx
    rcases List.mem_cons.mp hx with rfl | hx
    · exact ⟨(h.callers _ ha).1, (h.callers _ ha).2⟩
    · exact h.callers x (others hx)
  cases p with
  | store =>
      refine ⟨h.making, h.last, h.told, h.called, h.left, h.taken, h.dropQuits,
        fun y q hy hq => ?_, callers⟩
      rcases List.mem_cons.mp hy with hy | hy
      · cases hy; cases hq
      · exact h.phase y q (others hy) hq
  | quit =>
      exact ⟨h.making, h.last, fun _ => .inl rfl, fun _ => rfl, fun _ => .inl rfl,
        fun _ => .inr (.inl rfl), fun _ => rfl, fun _ _ _ _ => rfl, callers⟩
  | take =>
      have called := h.phase o _ ha rfl
      exact ⟨h.making, h.last, h.told, h.called, h.left, fun _ => .inr (.inl called), h.dropQuits,
        fun _ _ _ _ => called, callers⟩
  | join b =>
      exact ⟨h.making, h.last, h.told, h.called, h.left, h.taken, h.dropQuits,
        fun y q hy hq => h.phase y q (others hy) hq, fun x hx => h.callers x (others hx)⟩

end Owned

theorem owned_next (h : Owned s) {a : OwnAct} (ha : s.Enabled a) : Owned (s.next a) := by
  -- a step of the IO thread that keeps some of its references
  have io : ∀ {x : DrivePhase}, 0 < s.io.refs → 0 < x.refs →
      (x.pastRun = true → s.shutdownCalled = true ∨ s.failed = true) →
      Owned { s with io := x } := fun h₁ h₂ hl =>
    h.hold (Owned.strong_pos_of_refs h₁) (Nat.add_pos_right _ h₂) h.making hl
      fun y hy => (h.callers y hy).1
  cases a with
  | storeHandle =>
      refine ⟨nofun, h.last, h.told, h.called, h.left, nofun, h.dropQuits, h.phase,
        fun x hx => ⟨(h.callers x hx).1, rfl⟩⟩
  | clone o =>
      exact h.hold (Owned.strong_pos_of_mem ha.1) (Nat.add_pos_left (Nat.succ_pos _) _)
        (fun hc => .tail _ (h.making hc)) h.left fun y hy => .tail _ (h.callers y hy).1
  | send o t =>
      obtain ⟨hm, hf, hc⟩ := ha
      refine h.hold (Owned.strong_pos_of_mem hm) (Nat.add_pos_left (Nat.succ_pos _) _)
        (fun hc' => by rw [hc] at hc'; cases hc') h.left fun y hy => .tail _ ?_
      exact (List.mem_erase_of_ne (hf y hy)).mpr (h.callers y hy).1
  | current =>
      refine h.hold (Owned.strong_pos_of_refs (by rw [ha.1]; decide))
        (Nat.add_pos_left (Nat.succ_pos _) _) (fun hc => .tail _ (h.making hc)) h.left
        fun y hy => .tail _ (h.callers y hy).1
  | drop o =>
      obtain ⟨hm, hf, hc⟩ := ha
      refine h.released (Owned.strong_pos_of_mem hm) (fun hc' => by rw [hc] at hc'; cases hc')
        h.left fun y hy => ?_
      exact (List.mem_erase_of_ne (hf y hy)).mpr (h.callers y hy).1
  | shutdown o =>
      refine ⟨h.making, h.last, h.told, h.called, h.left, h.taken, h.dropQuits,
        fun y q hy hq => ?_, fun x hx => ?_⟩
      · rcases List.mem_cons.mp hy with hy | hy
        · cases hy; cases hq
        · exact h.phase y q hy hq
      · rcases List.mem_cons.mp hx with rfl | hx
        · exact ⟨ha.1, ha.2.2⟩
        · exact h.callers x hx
  | call o p => exact h.call ha.1
  | drive => exact io (by rw [show s.io = _ from ha]; decide) (by decide) nofun
  | run => exact io (by rw [show s.io = _ from ha]; decide) (by decide) nofun
  | runReturns =>
      refine io (by rw [ha.1]; decide) (by decide) fun _ => ?_
      rcases h.told ha.2.2 with hq | hq
      · exact .inl hq
      · rw [h.not_dropping (Owned.strong_pos_of_refs (by rw [ha.1]; decide))] at hq
        exact hq.elim nofun nofun
  | runFails =>
      have pos : 0 < s.io.refs := by rw [ha.1]; decide
      have notYet := h.not_dropping (Owned.strong_pos_of_refs pos)
      exact ⟨h.making, iff_of_false (Nat.succ_ne_zero _) (not_not_intro notYet), h.told, h.called,
        fun _ => .inr rfl, h.taken, h.dropQuits, h.phase, h.callers⟩
  | dropDelegate | dropDefault =>
      have phase : s.io = _ := ha
      exact io (by rw [phase]; decide) (by decide) fun _ => h.left (by rw [phase]; rfl)
  | dropCaptured =>
      have phase : s.io = _ := ha
      exact h.released (Owned.strong_pos_of_refs (by rw [phase]; decide)) h.making
        (fun _ => h.left (by rw [phase]; rfl)) fun y hy => (h.callers y hy).1
  | dropTake =>
      have phase : s.dropping = .take := ha
      have zero : s.strong = 0 := h.last.mpr (by rw [phase]; nofun)
      have called : s.quit = true → s.shutdownCalled = true := fun hq => by
        have := h.told hq
        rw [phase] at this
        exact this.elim id fun hd => hd.elim nofun nofun
      cases ht : s.threadHandle with
      | true =>
          simp only [next, ht, if_pos]
          exact ⟨h.making, iff_of_true zero nofun, fun hq => .inl (called hq), h.called, h.left,
            fun _ => .inr (.inr rfl), nofun, h.phase, h.callers⟩
      | false =>
          -- the handle was taken by a call of `shutdown`
          have quit : s.quit = true := by
            rcases h.taken ht with hc | hc | hc
            · exact absurd zero (Nat.ne_of_gt (Owned.strong_pos_of_mem (h.making hc)))
            · exact h.called hc
            · rw [phase] at hc; cases hc
          simp only [next, ht, if_neg Bool.false_ne_true]
          exact ⟨h.making, iff_of_true zero nofun, fun _ => .inr (.inr rfl), h.called, h.left,
            fun _ => .inr (.inr rfl), fun _ => quit, h.phase, h.callers⟩
  | dropQuit =>
      have phase : s.dropping = .quit := ha
      have zero : s.strong = 0 := h.last.mpr (by rw [phase]; nofun)
      exact ⟨h.making, iff_of_true zero nofun, fun _ => .inr (.inl rfl), fun _ => rfl, h.left,
        fun _ => .inr (.inr rfl), fun _ => rfl, h.phase, h.callers⟩
  | dropJoin =>
      have zero : s.strong = 0 := h.last.mpr (by rw [ha.1]; nofun)
      have quit := h.dropQuits (.inl ha.1)
      exact ⟨h.making, iff_of_true zero nofun, fun _ => .inr (.inr rfl), h.called, h.left,
        fun _ => .inr (.inr rfl), fun _ => quit, h.phase, h.callers⟩

end OwnState

theorem reachable_owned {C : OwnState → OwnAct → Prop} {s : OwnState}
    (h : ownMachine.ReachableBy C s) : s.Owned := by
  refine h.invariant ?_ fun s a _ hi _ ha => OwnState.owned_next hi ha
  rintro s rfl
  exact OwnState.owned_new

namespace OwnState

variable {s : OwnState}

/-- The loop does not fail, and code on the IO thread neither stops the runner nor hands a handle of
it out. -/
def Quiet (_ : OwnState) : OwnAct → Prop
  | .runFails | .shutdown .io | .call .io _ | .send .io _ => False
  | _ => True

/-- Whatever happens next, the pump is not told to quit, the IO thread does not end and the fds of
the pump stay open. -/
def NeverStops (s : OwnState) : Prop :=
  ∀ s', ownMachine.Run Quiet s s' → s'.quit = false ∧ s'.io ≠ .released ∧ s'.fdsOpen = true

/-- Nobody outside has a handle, and the IO thread is in `run` or before it. -/
structure Abandoned (s : OwnState) : Prop where
  owned : s.Owned
  handles : ∀ o ∈ s.handles, o = .io
  quit : s.quit = false
  inRun : s.io.pastRun = false

theorem Abandoned.refs_pos (h : Abandoned s) : 0 < s.io.refs := by
  have inRun := h.inRun
  cases hx : s.io with
  | spawned | driving | running => decide
  | _ => rw [hx] at inRun; cases inRun

theorem Abandoned.not_dropping (h : Abandoned s) : s.dropping = .notYet :=
  h.owned.not_dropping (Owned.strong_pos_of_refs h.refs_pos)

theorem abandoned_next (h : Abandoned s) {a : OwnAct} (hC : Quiet s a) (ha : s.Enabled a) :
    Abandoned (s.next a) := by
  have owned := owned_next h.owned ha
  have notYet := h.not_dropping
  have past : ∀ {x : DrivePhase}, s.io = x → x.pastRun = false := fun e => e ▸ h.inRun
  cases a with
  | storeHandle => exact ⟨owned, h.handles, h.quit, h.inRun⟩
  | clone o =>
      refine ⟨owned, fun o' ho' => ?_, h.quit, h.inRun⟩
      rcases List.mem_cons.mp ho' with rfl | ho'
      · exact h.handles _ ha.1
      · exact h.handles _ ho'
  | send o t =>
      rw [h.handles o ha.1] at hC
      exact hC.elim
  | current =>
      refine ⟨owned, fun o' ho' => ?_, h.quit, h.inRun⟩
      rcases List.mem_cons.mp ho' with rfl | ho'
      · rfl
      · exact h.handles _ ho'
  | drop o =>
      have pos : ({ s with handles := s.handles.erase o } : OwnState).strong ≠ 0 :=
        Nat.ne_of_gt (Nat.add_pos_right _ h.refs_pos)
      have same : s.next (.drop o) = { s with handles := s.handles.erase o } := by
        simp only [next, released, if_neg pos]
      rw [same] at owned ⊢
      exact ⟨owned, fun o' ho' => h.handles o' (List.mem_of_mem_erase ho'), h.quit, h.inRun⟩
  | shutdown o =>
      rw [h.handles o ha.1] at hC
      exact hC.elim
  | call o p =>
      rw [h.handles o (h.owned.callers _ ha.1).1] at hC
      exact hC.elim
  | drive | run => exact ⟨owned, h.handles, h.quit, rfl⟩
  | runReturns => exact absurd ha.2.2 (by rw [h.quit]; nofun)
  | runFails => exact hC.elim
  | dropDelegate | dropDefault | dropCaptured => cases past ha
  | dropTake | dropQuit => rw [show s.dropping = _ from ha] at notYet; cases notYet
  | dropJoin => rw [ha.1] at notYet; cases notYet

theorem Abandoned.neverStops (h : Abandoned s) : s.NeverStops := by
  intro s' hr
  have h' : Abandoned s' := by
    induction hr with
    | refl => exact h
    | more _ hC ha ih => exact abandoned_next ih hC ha
  refine ⟨h'.quit, fun hx => ?_, by rw [fdsOpen, h'.not_dropping]; rfl⟩
  have inRun := h'.inRun
  rw [hx] at inRun
  cases inRun

end OwnState

/-- **Dropping a runner.**  In every state in which no handle is held outside the IO thread and no
`Drop` is under way, the pump has been told to quit if and only if somebody had called `shutdown`,
or the loop had failed and every reference is gone.  Otherwise, unless the loop has failed, the IO
thread goes on for ever and keeps the pump's fds open. -/
theorem told_to_quit_iff {s : OwnState} (h : ownMachine.Reachable s) (ho : s.outside = [])
    (hd : s.DropsCompleted) :
    (s.quit = true ↔ s.shutdownCalled = true ∨ (s.failed = true ∧ s.strong = 0)) ∧
    (s.quit = false → s.failed = false → s.NeverStops) := by
  have owned := reachable_owned h
  refine ⟨⟨fun hq => ?_, fun hc => ?_⟩, fun hq hf => ?_⟩
  · by_cases hs : s.shutdownCalled = true
    · exact .inl hs
    · -- `Drop` told the pump, so the IO thread had left `run`
      have dropped : s.dropping ≠ .notYet := by
        rcases (owned.told hq).resolve_left hs with hd | hd <;> rw [hd] <;> nofun
      have zero := owned.last.mpr dropped
      have released : s.io.refs = 0 := (Nat.add_eq_zero_iff.mp zero).2
      have past : s.io.pastRun = true := by
        cases hx : s.io with
        | spawned | driving | running => rw [hx] at released; cases released
        | _ => rfl
      exact .inr ⟨(owned.left past).resolve_left hs, zero⟩
  · rcases hc with hc | ⟨-, hz⟩
    · exact owned.called hc
    · exact owned.dropQuits (.inr (hd.resolve_left (owned.last.mp hz)))
  · refine OwnState.Abandoned.neverStops ⟨owned, fun o hm => ?_, hq, ?_⟩
    · by_contra hne
      have : o ∈ s.outside := List.mem_filter.mpr ⟨hm, by simpa using hne⟩
      rw [ho] at this
      cases this
    · by_contra hp
      rcases owned.left ((Bool.not_eq_false _).mp hp) with hc | hc
      · rw [owned.called hc] at hq; cases hq
      · rw [hc] at hf; cases hf

/-- The only handle is used for `shutdown` and dropped after it. -/
def stoppedRun : List OwnAct :=
  [.storeHandle, .drive, .run, .shutdown (.thread 0), .call (.thread 0) .store,
   .call (.thread 0) .quit, .runReturns, .dropDelegate, .dropDefault, .dropCaptured,
   .call (.thread 0) .take, .call (.thread 0) (.join true), .drop (.thread 0), .dropTake]

theorem stoppedRun_told :
    let s := ownMachine.runList .new stoppedRun
    s.outside = [] ∧ s.DropsCompleted ∧ s.quit = true ∧ s.fdsOpen = false := by
  have follows : ownMachine.Follows (fun _ _ => True) .new stoppedRun := by decide +kernel
  have outside : (ownMachine.runList .new stoppedRun).outside = [] := by decide +kernel
  have completed : (ownMachine.runList .new stoppedRun).DropsCompleted := .inr (by decide +kernel)
  exact ⟨outside, completed,
    (told_to_quit_iff (.of_follows rfl follows) outside completed).1.mpr (.inl (by decide +kernel)),
    by decide +kernel⟩

/-- The only handle is dropped: `Drop` does not run, for the IO thread holds three references, and
the thread never ends. -/
theorem droppedRun_leaks :
    let s := ownMachine.runList .new [.storeHandle, .drive, .run, .drop (.thread 0)]
    ownMachine.Reachable s ∧ s.outside = [] ∧ s.DropsCompleted ∧ s.strong = 3 ∧ s.quit = false ∧
      s.NeverStops := by
  have follows : ownMachine.Follows (fun _ _ => True) .new
      [.storeHandle, .drive, .run, .drop (.thread 0)] := by decide +kernel
  have reach : ownMachine.Reachable (ownMachine.runList .new
      [.storeHandle, .drive, .run, .drop (.thread 0)]) := .of_follows rfl follows
  refine ⟨reach, by decide +kernel, .inl (by decide +kernel), by decide +kernel, by decide +kernel,
    OwnState.Abandoned.neverStops ⟨reachable_owned reach, by decide +kernel, by decide +kernel,
      by decide +kernel⟩⟩

end RustIo
