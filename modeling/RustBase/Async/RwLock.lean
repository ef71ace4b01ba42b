import RustBase.Async.Waiters

/-!
# Async — RwLock

`RwLock` of `sync.rs`, with any number of `Read` and `Write` futures and of guards of both kinds.
As in the mutex every function is one critical section, and so one step.

There are two wait sets.  The last reader to leave wakes the writers only, and a writer that leaves
wakes both sets.  That is enough because a reader parks only behind a writer
(`RwLockState.Sound.readNobody`), and a writer behind a writer or some reader (**`rwLock_sound`**).
-/

namespace RustAsync
open Support

/-! ### The code -/

structure RwInner where
  readers : ℕ
  writer : Bool
  readWaiters : Waiters
  writeWaiters : Waiters

namespace RwInner

def new : RwInner := ⟨0, false, .new, .new⟩

/-- `Read::poll`, with the id it leaves in the future. -/
def pollRead (s : RwInner) (id : Option ℕ) (w : WakerId) : Poll Unit × Option ℕ × RwInner :=
  if !s.writer then
    (.ready (), none, { s with readers := s.readers + 1, readWaiters := s.readWaiters.unpark id })
  else
    let (k, x) := s.readWaiters.park id w
    (.pending, some k, { s with readWaiters := x })

/-- `Drop for Read`. -/
def dropRead (s : RwInner) (id : Option ℕ) : RwInner :=
  if id.isSome then { s with readWaiters := s.readWaiters.unpark id } else s

/-- `Write::poll`, with the id it leaves in the future. -/
def pollWrite (s : RwInner) (id : Option ℕ) (w : WakerId) : Poll Unit × Option ℕ × RwInner :=
  if !s.writer && s.readers == 0 then
    (.ready (), none, { s with writer := true, writeWaiters := s.writeWaiters.unpark id })
  else
    let (k, x) := s.writeWaiters.park id w
    (.pending, some k, { s with writeWaiters := x })

/-- `Drop for Write`. -/
def dropWrite (s : RwInner) (id : Option ℕ) : RwInner :=
  if id.isSome then { s with writeWaiters := s.writeWaiters.unpark id } else s

/-- `Drop for RwLockReadGuard`, with the wakers it invokes. -/
def dropReadGuard (s : RwInner) : List WakerId × RwInner :=
  let s := { s with readers := s.readers - 1 }
  if s.readers = 0 then
    let (woken, x) := s.writeWaiters.wakeAll
    (woken, { s with writeWaiters := x })
  else ([], s)

/-- `Drop for RwLockWriteGuard`, with the wakers it invokes. -/
def dropWriteGuard (s : RwInner) : List WakerId × RwInner :=
  let (writers, x) := s.writeWaiters.wakeAll
  let (readers, y) := s.readWaiters.wakeAll
  (writers ++ readers, { s with writer := false, writeWaiters := x, readWaiters := y })

theorem dropRead_eq {s : RwInner} {id : Option ℕ} :
    s.dropRead id = { s with readWaiters := s.readWaiters.unpark id } := by
  cases id <;> rfl

theorem dropWrite_eq {s : RwInner} {id : Option ℕ} :
    s.dropWrite id = { s with writeWaiters := s.writeWaiters.unpark id } := by
  cases id <;> rfl

/-- What a poll of a reader does: it gets in, or parks behind a writer. -/
theorem pollRead_cases (s : RwInner) (id : Option ℕ) (w : WakerId) :
    (s.writer = false ∧ s.pollRead id w = (.ready (), none,
      { s with readers := s.readers + 1, readWaiters := s.readWaiters.unpark id })) ∨
    (s.writer = true ∧ s.pollRead id w = (.pending, some (s.readWaiters.park id w).1,
      { s with readWaiters := (s.readWaiters.park id w).2 })) := by
  cases hw : s.writer with
  | false => exact .inl ⟨rfl, by simp [pollRead, hw]⟩
  | true => exact .inr ⟨rfl, by simp [pollRead, hw]⟩

/-- What a poll of a writer does: it gets in when nobody is, or parks. -/
theorem pollWrite_cases (s : RwInner) (id : Option ℕ) (w : WakerId) :
    (s.writer = false ∧ s.readers = 0 ∧ s.pollWrite id w = (.ready (), none,
      { s with writer := true, writeWaiters := s.writeWaiters.unpark id })) ∨
    ((s.writer = true ∨ 0 < s.readers) ∧ s.pollWrite id w =
      (.pending, some (s.writeWaiters.park id w).1,
        { s with writeWaiters := (s.writeWaiters.park id w).2 })) := by
  by_cases h : s.writer = false ∧ s.readers = 0
  · exact .inl ⟨h.1, h.2, by simp [pollWrite, h.1, h.2]⟩
  · have busy : s.writer = true ∨ 0 < s.readers := by
      cases hw : s.writer with
      | false => exact .inr (Nat.pos_of_ne_zero fun h₀ => h ⟨hw, h₀⟩)
      | true => exact .inl rfl
    refine .inr ⟨busy, ?_⟩
    rw [pollWrite, if_neg]
    simpa using h

end RwInner

/-! ### The machine -/

structure RwLockState where
  inner : RwInner
  /-- the `Read` futures -/
  reads : Futures
  /-- the `Write` futures -/
  writes : Futures
  /-- the live guards of each kind -/
  readGuards : List GuardId
  writeGuards : List GuardId
  nextGuard : GuardId

inductive RwLockAct where
  | read (f : FutId)
  | pollRead (f : FutId) (w : WakerId)
  | dropRead (f : FutId)
  | dropReadGuard (g : GuardId)
  | write (f : FutId)
  | pollWrite (f : FutId) (w : WakerId)
  | dropWrite (f : FutId)
  | dropWriteGuard (g : GuardId)
  deriving DecidableEq

namespace RwLockState

def new : RwLockState where
  inner := .new
  reads := .new
  writes := .new
  readGuards := []
  writeGuards := []
  nextGuard := 0

def Enabled (s : RwLockState) : RwLockAct → Prop
  | .read f => s.reads.ids f = none
  | .pollRead f _ | .dropRead f => (s.reads.ids f).isSome = true
  | .dropReadGuard g => g ∈ s.readGuards
  | .write f => s.writes.ids f = none
  | .pollWrite f _ | .dropWrite f => (s.writes.ids f).isSome = true
  | .dropWriteGuard g => g ∈ s.writeGuards

instance (s : RwLockState) : ∀ a, Decidable (s.Enabled a)
  | .read _ | .pollRead _ _ | .dropRead _ | .write _ | .pollWrite _ _ | .dropWrite _ =>
      inferInstanceAs (Decidable (_ = _))
  | .dropReadGuard _ | .dropWriteGuard _ => inferInstanceAs (Decidable (_ ∈ _))

def pollRead (s : RwLockState) (f : FutId) (w : WakerId) : RwLockState :=
  let (result, id, inner) := s.inner.pollRead (s.reads.id f) w
  match result with
  | .ready _ =>
      { s with
        inner := inner
        reads := s.reads.polled f id none
        readGuards := s.nextGuard :: s.readGuards
        nextGuard := s.nextGuard + 1 }
  | .pending => { s with inner := inner, reads := s.reads.polled f id (some w) }

def pollWrite (s : RwLockState) (f : FutId) (w : WakerId) : RwLockState :=
  let (result, id, inner) := s.inner.pollWrite (s.writes.id f) w
  match result with
  | .ready _ =>
      { s with
        inner := inner
        writes := s.writes.polled f id none
        writeGuards := s.nextGuard :: s.writeGuards
        nextGuard := s.nextGuard + 1 }
  | .pending => { s with inner := inner, writes := s.writes.polled f id (some w) }

/-- Some wakers are invoked. -/
def woken (s : RwLockState) (ws : List WakerId) : RwLockState :=
  { s with reads := s.reads.woken ws, writes := s.writes.woken ws }

def next (s : RwLockState) : RwLockAct → RwLockState
  | .read f => { s with reads := s.reads.create f }
  | .pollRead f w => s.pollRead f w
  | .dropRead f => { s with inner := s.inner.dropRead (s.reads.id f), reads := s.reads.drop f }
  | .dropReadGuard g =>
      let (ws, inner) := s.inner.dropReadGuard
      { s with inner := inner, readGuards := s.readGuards.erase g }.woken ws
  | .write f => { s with writes := s.writes.create f }
  | .pollWrite f w => s.pollWrite f w
  | .dropWrite f => { s with inner := s.inner.dropWrite (s.writes.id f), writes := s.writes.drop f }
  | .dropWriteGuard g =>
      let (ws, inner) := s.inner.dropWriteGuard
      { s with inner := inner, writeGuards := s.writeGuards.erase g }.woken ws

end RwLockState

def rwLockMachine : Machine RwLockState RwLockAct where
  Init := fun s => s = .new
  Enabled := RwLockState.Enabled
  next := RwLockState.next

instance : ∀ s a, Decidable (rwLockMachine.Enabled s a) :=
  fun s a => inferInstanceAs (Decidable (s.Enabled a))

/-! ### Exclusion, and nobody left behind -/

namespace RwLockState

variable {s : RwLockState}

structure Sound (s : RwLockState) : Prop where
  fitsRead : s.reads.Fits s.inner.readWaiters
  fitsWrite : s.writes.Fits s.inner.writeWaiters
  readers : s.inner.readers = s.readGuards.length
  held : s.inner.writer = true → s.readGuards = [] ∧ ∃ g, s.writeGuards = [g]
  free : s.inner.writer = false → s.writeGuards = []
  readNobody : s.inner.writer = false → s.inner.readWaiters.IsEmpty
  writeNobody : s.inner.writer = false → s.inner.readers = 0 → s.inner.writeWaiters.IsEmpty

theorem sound_new : Sound .new where
  fitsRead := .new
  fitsWrite := .new
  readers := rfl
  held h := by cases h
  free _ := rfl
  readNobody _ := Waiters.isEmpty_new
  writeNobody _ _ := Waiters.isEmpty_new

theorem sound_pollRead (h : Sound s) (f : FutId) (w : WakerId) : Sound (s.pollRead f w) := by
  rcases s.inner.pollRead_cases (s.reads.id f) w with ⟨hw, he⟩ | ⟨hw, he⟩
  · simp only [pollRead, he]
    refine ⟨h.fitsRead.ready f, h.fitsWrite, ?_, fun h' => ?_, h.free, ?_, fun _ h₀ => ?_⟩
    · simp [h.readers]
    · rw [hw] at h'; cases h'
    · exact fun _ => (h.readNobody hw).unpark
    · cases h₀
  · simp only [pollRead, he]
    refine ⟨h.fitsRead.pending f w, h.fitsWrite, h.readers, h.held, h.free, ?_, h.writeNobody⟩
    intro h'; rw [hw] at h'; cases h'

theorem sound_pollWrite (h : Sound s) (f : FutId) (w : WakerId) : Sound (s.pollWrite f w) := by
  rcases s.inner.pollWrite_cases (s.writes.id f) w with ⟨hw, h₀, he⟩ | ⟨busy, he⟩
  · simp only [pollWrite, he]
    refine ⟨h.fitsRead, h.fitsWrite.ready f, h.readers, fun _ => ⟨?_, s.nextGuard, ?_⟩, ?_, ?_, ?_⟩
    · exact List.eq_nil_of_length_eq_zero (h.readers ▸ h₀)
    · rw [h.free hw]
    · intro h'; cases h'
    · intro h'; cases h'
    · intro h'; cases h'
  · simp only [pollWrite, he]
    refine ⟨h.fitsRead, h.fitsWrite.pending f w, h.readers, h.held, h.free, h.readNobody, ?_⟩
    intro h' h₀
    rcases busy with hw | hr
    · rw [hw] at h'; cases h'
    · exact absurd h₀ (Nat.ne_of_gt hr)

/-- A read guard is live only while there is no writer. -/
theorem Sound.writer_of_readGuard (h : Sound s) {g : GuardId} (hg : g ∈ s.readGuards) :
    s.inner.writer = false := by
  by_contra hw
  rw [(h.held (by simpa using hw)).1] at hg
  cases hg

/-- A write guard is the only guard. -/
theorem Sound.writeGuards_eq (h : Sound s) {g : GuardId} (hg : g ∈ s.writeGuards) :
    s.inner.writer = true ∧ s.writeGuards = [g] := by
  cases hw : s.inner.writer with
  | true =>
      obtain ⟨-, g', hg'⟩ := h.held hw
      rw [hg'] at hg ⊢
      exact ⟨rfl, by rw [List.mem_singleton.mp hg]⟩
  | false => rw [h.free hw] at hg; cases hg

theorem sound_dropReadGuard (h : Sound s) {g : GuardId} (hg : g ∈ s.readGuards) :
    Sound (s.next (.dropReadGuard g)) := by
  have hw := h.writer_of_readGuard hg
  have readers : s.inner.readers - 1 = (s.readGuards.erase g).length := by
    rw [List.length_erase_of_mem hg, h.readers]
  have busy {p : Prop} : s.inner.writer = true → p := by
    intro h'; rw [hw] at h'; cases h'
  by_cases h₀ : s.inner.readers - 1 = 0
  · -- the last reader wakes the writers
    simp only [next, RwInner.dropReadGuard, h₀, if_true, woken]
    refine ⟨h.fitsRead.woken _, h.fitsWrite.wakeAll (List.Subset.refl _), ?_, busy, h.free,
      h.readNobody, fun _ _ => Waiters.isEmpty_wakeAll⟩
    rw [← readers, h₀]
  · simp only [next, RwInner.dropReadGuard, h₀, if_false, woken]
    exact ⟨h.fitsRead.woken _, h.fitsWrite.woken _, readers, busy, h.free, h.readNobody,
      fun _ h' => absurd h' h₀⟩

theorem sound_dropWriteGuard (h : Sound s) {g : GuardId} (hg : g ∈ s.writeGuards) :
    Sound (s.next (.dropWriteGuard g)) := by
  obtain ⟨-, only⟩ := h.writeGuards_eq hg
  simp only [next, RwInner.dropWriteGuard, woken]
  refine ⟨h.fitsRead.wakeAll (List.subset_append_right _ _),
    h.fitsWrite.wakeAll (List.subset_append_left _ _), h.readers, fun h' => ?_, fun _ => ?_,
    fun _ => Waiters.isEmpty_wakeAll, fun _ _ => Waiters.isEmpty_wakeAll⟩
  · cases h'
  · simp [only]

theorem sound_next (h : Sound s) {a : RwLockAct} (ha : s.Enabled a) : Sound (s.next a) := by
  cases a with
  | read f =>
      exact ⟨h.fitsRead.create ha, h.fitsWrite, h.readers, h.held, h.free, h.readNobody,
        h.writeNobody⟩
  | pollRead f w => exact sound_pollRead h f w
  | dropRead f =>
      simp only [next, RwInner.dropRead_eq]
      exact ⟨h.fitsRead.drop f, h.fitsWrite, h.readers, h.held, h.free,
        fun hw => (h.readNobody hw).unpark, h.writeNobody⟩
  | dropReadGuard g => exact sound_dropReadGuard h ha
  | write f =>
      exact ⟨h.fitsRead, h.fitsWrite.create ha, h.readers, h.held, h.free, h.readNobody,
        h.writeNobody⟩
  | pollWrite f w => exact sound_pollWrite h f w
  | dropWrite f =>
      simp only [next, RwInner.dropWrite_eq]
      exact ⟨h.fitsRead, h.fitsWrite.drop f, h.readers, h.held, h.free, h.readNobody,
        fun hw h₀ => (h.writeNobody hw h₀).unpark⟩
  | dropWriteGuard g => exact sound_dropWriteGuard h ha

end RwLockState

theorem reachable_rwLockSound {s : RwLockState} (h : rwLockMachine.Reachable s) : s.Sound := by
  refine h.invariant (fun s h₀ => ?_) fun s a _ hi _ ha => RwLockState.sound_next hi ha
  obtain rfl : s = .new := h₀
  exact RwLockState.sound_new

/-- **Readers share, a writer is alone, and nobody is left behind.**  In every reachable state:

* `readers` is the number of read guards, so that it is positive when one of them is dropped;
* there is one write guard when `writer` is true and none when it is false, and a read guard is
  never live with a write guard;
* a reader is parked only while `writer` is true, and a writer only while `writer` is true or
  `readers` is positive;
* a `Read` whose last poll was pending and which was not woken since would still be pending now, and
  the release of the writer wakes it;
* so would such a `Write`, and the release of the writer and that of the last reader wake it. -/
theorem rwLock_sound {s : RwLockState} (h : rwLockMachine.Reachable s) :
    (s.inner.readers = s.readGuards.length ∧ ∀ g ∈ s.readGuards, 0 < s.inner.readers) ∧
    ((s.inner.writer = true → ∃ g, s.writeGuards = [g]) ∧
      (s.inner.writer = false → s.writeGuards = []) ∧
      (s.readGuards = [] ∨ s.writeGuards = [])) ∧
    (¬ s.inner.readWaiters.IsEmpty → s.inner.writer = true) ∧
    (¬ s.inner.writeWaiters.IsEmpty → s.inner.writer = true ∨ 0 < s.inner.readers) ∧
    (∀ f w, s.reads.awaiting f = some w →
      s.inner.writer = true ∧ w ∈ s.inner.dropWriteGuard.1) ∧
    (∀ f w, s.writes.awaiting f = some w →
      (s.inner.writer = true ∨ 0 < s.inner.readers) ∧ w ∈ s.inner.dropWriteGuard.1 ∧
      (s.inner.readers = 1 → w ∈ s.inner.dropReadGuard.1)) := by
  have hs := reachable_rwLockSound h
  have parkedRead : ¬ s.inner.readWaiters.IsEmpty → s.inner.writer = true := by
    intro hne
    by_contra hw
    exact hne (hs.readNobody (by simpa using hw))
  have parkedWrite : ¬ s.inner.writeWaiters.IsEmpty →
      s.inner.writer = true ∨ 0 < s.inner.readers := by
    intro hne
    by_contra hn
    push Not at hn
    exact hne (hs.writeNobody (by simpa using hn.1) (Nat.le_zero.mp hn.2))
  refine ⟨⟨hs.readers, fun g hg => ?_⟩, ⟨fun hw => (hs.held hw).2, hs.free, ?_⟩, parkedRead,
    parkedWrite, fun f w hf => ⟨parkedRead (hs.fitsRead.not_isEmpty hf), ?_⟩,
    fun f w hf => ⟨parkedWrite (hs.fitsWrite.not_isEmpty hf), ?_, fun h₁ => ?_⟩⟩
  · rw [hs.readers]; exact List.length_pos_of_mem hg
  · cases hw : s.inner.writer with
    | true => exact .inl (hs.held hw).1
    | false => exact .inr (hs.free hw)
  · exact List.mem_append_right _ (hs.fitsRead.mem_wakeAll hf)
  · exact List.mem_append_left _ (hs.fitsWrite.mem_wakeAll hf)
  · simp only [RwInner.dropReadGuard, h₁]
    exact hs.fitsWrite.mem_wakeAll hf

/-- Two readers are in and a writer waits; one reader leaves. -/
def readersRun : List RwLockAct :=
  [.read 0, .pollRead 0 5, .read 1, .pollRead 1 6, .write 2, .pollWrite 2 7, .dropReadGuard 0]

/-- The writer is still parked, and the last reader wakes it. -/
theorem readersRun_wakes :
    (rwLockMachine.runList .new readersRun).writes.awaiting 2 = some 7 ∧
    (rwLockMachine.runList .new readersRun).inner.readers = 1 ∧
    7 ∈ (rwLockMachine.runList .new readersRun).inner.dropReadGuard.1 := by
  have hf : rwLockMachine.Follows (fun _ _ => True) .new readersRun := by decide +kernel
  have hw : (rwLockMachine.runList .new readersRun).writes.awaiting 2 = some 7 := by decide +kernel
  have h₁ : (rwLockMachine.runList .new readersRun).inner.readers = 1 := by decide +kernel
  have sound := rwLock_sound (.of_follows rfl hf)
  exact ⟨hw, h₁, (sound.2.2.2.2.2 2 7 hw).2.2 h₁⟩

end RustAsync
