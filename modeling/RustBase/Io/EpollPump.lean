import Mathlib.Algebra.Group.Nat.Defs
import RustBase.Support.Machine

/-!
# Io — the watch table of the epoll pump

The data of `EpollMessagePump` and of the kernel's epoll instance, and the operations on them, each
one critical section or one system call.

* `Kernel`: which descriptors are open, the interest list of the epoll fd, and the counter of the
  wake-up eventfd.  Closing a descriptor takes it off the interest list.
* `WatchTable`: the `watches` map and the generation counter.  The counter is an `AtomicU64`; no run
  makes 2^64 registrations, so it is a number here.
* `Call`: one call of an `FdWatcher` method, which is what the dispatch of an event comes to.

Event masks are `u32`s with the constants of `libc`.
-/

namespace RustIo

abbrev Fd := ℕ

/-- An `FdWatcher` object, by its address. -/
abbrev WatcherId := ℕ

inductive WatchMode where
  | read
  | write
  | readWrite
  deriving DecidableEq

inductive Direction where
  | read
  | write
  deriving DecidableEq

/-- The mode asks for the direction. -/
def WatchMode.covers : WatchMode → Direction → Bool
  | .read, .read | .write, .write | .readWrite, _ => true
  | _, _ => false

/-! ### Event masks -/

def epollIn : UInt32 := 0x001
def epollOut : UInt32 := 0x004
def epollErr : UInt32 := 0x008
def epollHup : UInt32 := 0x010

def modeToEpollEvents : WatchMode → UInt32
  | .read => epollIn
  | .write => epollOut
  | .readWrite => epollIn ||| epollOut

theorem modeToEpollEvents_injective : Function.Injective modeToEpollEvents := by
  intro m n h
  cases m <;> cases n <;> first | rfl | exact absurd h (by decide)

/-- `errored` in the dispatch loop. -/
def errored (flags : UInt32) : Bool := flags &&& (epollErr ||| epollHup) != 0

/-- `can_read` and `can_write` in the dispatch loop. -/
def canDo (flags : UInt32) (mode : WatchMode) (d : Direction) : Bool :=
  (flags &&& (match d with | .read => epollIn | .write => epollOut) != 0 || errored flags) &&
    mode.covers d

/-- The event makes at least one call for an entry with the mode. -/
def meets (flags : UInt32) (mode : WatchMode) : Bool :=
  canDo flags mode .read || canDo flags mode .write

theorem meets_iff {flags : UInt32} {mode : WatchMode} :
    meets flags mode = true ↔ ∃ d, canDo flags mode d = true := by
  rw [meets, Bool.or_eq_true]
  refine ⟨fun h => h.elim (fun h => ⟨.read, h⟩) fun h => ⟨.write, h⟩, fun ⟨d, h⟩ => ?_⟩
  cases d with
  | read => exact .inl h
  | write => exact .inr h

/-- What `epoll_wait` reports of a descriptor that is on the interest list with `mask`: some of the
events asked for, or an error. -/
def Reportable (mask flags : UInt32) : Prop := flags &&& (mask ||| (epollErr ||| epollHup)) ≠ 0

instance (mask flags : UInt32) : Decidable (Reportable mask flags) :=
  inferInstanceAs (Decidable (_ ≠ _))

theorem and_or_ne_zero {x a b : UInt32} (h : x &&& (a ||| b) ≠ 0) : x &&& a ≠ 0 ∨ x &&& b ≠ 0 := by
  by_contra hc
  obtain ⟨ha, hb⟩ := not_or.mp hc
  have dist : x &&& (a ||| b) = (x &&& a) ||| (x &&& b) := by
    apply UInt32.toNat_inj.mp
    simp [Nat.and_or_distrib_left]
  refine h ?_
  rw [dist, not_not.mp ha, not_not.mp hb]
  rfl

/-- An event reported for the mask of a mode is one the mode asks for. -/
theorem meets_of_reportable {mode : WatchMode} {flags : UInt32}
    (h : Reportable (modeToEpollEvents mode) flags) : meets flags mode = true := by
  rw [meets_iff]
  have split : flags &&& modeToEpollEvents mode ≠ 0 ∨ errored flags = true := by
    rcases and_or_ne_zero h with h | h
    · exact .inl h
    · exact .inr (bne_iff_ne.mpr h)
  cases mode with
  | read =>
      refine ⟨.read, ?_⟩
      rcases split with h | h
      · simp [canDo, WatchMode.covers, show flags &&& epollIn ≠ 0 from h]
      · simp [canDo, WatchMode.covers, h]
  | write =>
      refine ⟨.write, ?_⟩
      rcases split with h | h
      · simp [canDo, WatchMode.covers, show flags &&& epollOut ≠ 0 from h]
      · simp [canDo, WatchMode.covers, h]
  | readWrite =>
      rcases split with h | h
      · rcases and_or_ne_zero h with h | h
        · exact ⟨.read, by simp [canDo, WatchMode.covers, h]⟩
        · exact ⟨.write, by simp [canDo, WatchMode.covers, h]⟩
      · exact ⟨.read, by simp [canDo, WatchMode.covers, h]⟩

/-! ### The kernel -/

structure Kernel where
  isOpen : Fd → Bool
  interest : Fd → Option UInt32
  /-- the counter of the eventfd -/
  eventfd : ℕ

namespace Kernel

/-- `epoll_ctl` with `EPOLL_CTL_ADD`, or `EPOLL_CTL_MOD` where that says `EEXIST`. -/
def ctlAdd (k : Kernel) (fd : Fd) (mask : UInt32) : Kernel :=
  { k with interest := Function.update k.interest fd (some mask) }

def ctlDel (k : Kernel) (fd : Fd) : Kernel :=
  { k with interest := Function.update k.interest fd none }

def openFd (k : Kernel) (fd : Fd) : Kernel :=
  { k with isOpen := Function.update k.isOpen fd true }

def closeFd (k : Kernel) (fd : Fd) : Kernel :=
  { k with
    isOpen := Function.update k.isOpen fd false
    interest := Function.update k.interest fd none }

/-- `write` of 1 to the eventfd; the counter stays where it would overflow. -/
def eventfdWrite (k : Kernel) : Kernel :=
  { k with eventfd := if k.eventfd + 1 < 2 ^ 64 - 1 then k.eventfd + 1 else k.eventfd }

def eventfdRead (k : Kernel) : Kernel := { k with eventfd := 0 }

theorem eventfdWrite_ne_zero (k : Kernel) : k.eventfdWrite.eventfd ≠ 0 := by
  simp only [eventfdWrite]
  split <;> omega

end Kernel

/-! ### The watch table -/

structure WatchEntry where
  watcher : WatcherId
  persistent : Bool
  mode : WatchMode
  generation : ℕ
  deriving DecidableEq

structure EpollEvent where
  events : UInt32
  fd : Fd
  deriving DecidableEq

/-- A call of `on_file_can_read_without_blocking` or `on_file_can_write_without_blocking`. -/
structure Call where
  fd : Fd
  watcher : WatcherId
  generation : ℕ
  direction : Direction
  deriving DecidableEq

structure WatchTable where
  watches : Fd → Option WatchEntry
  generationCounter : ℕ

namespace WatchTable

def new : WatchTable := ⟨fun _ => none, 0⟩

def insert (t : WatchTable) (fd : Fd) (e : WatchEntry) : WatchTable :=
  { t with watches := Function.update t.watches fd (some e) }

def remove (t : WatchTable) (fd : Fd) : WatchTable :=
  { t with watches := Function.update t.watches fd none }

/-- The entry of `fd` is the one of the given generation. -/
def Matches (t : WatchTable) (fd : Fd) (generation : ℕ) : Prop :=
  ∃ e, t.watches fd = some e ∧ e.generation = generation

instance (t : WatchTable) (fd : Fd) (generation : ℕ) : Decidable (t.Matches fd generation) :=
  match h : t.watches fd with
  | none => isFalse fun ⟨e, he, _⟩ => by rw [h] at he; cases he
  | some e =>
      if hg : e.generation = generation then isTrue ⟨e, h, hg⟩
      else isFalse fun ⟨e', he, hg'⟩ => hg (by rw [h] at he; cases he; exact hg')

end WatchTable

/-- The calls an event comes to, with the entry it found. -/
def calls (fd : Fd) (flags : UInt32) (e : WatchEntry) : List Call :=
  [Direction.read, .write].filterMap fun d =>
    if canDo flags e.mode d then some ⟨fd, e.watcher, e.generation, d⟩ else none

theorem mem_calls {fd : Fd} {flags : UInt32} {e : WatchEntry} {c : Call} :
    c ∈ calls fd flags e ↔ c.fd = fd ∧ c.watcher = e.watcher ∧ c.generation = e.generation ∧
      canDo flags e.mode c.direction = true := by
  simp only [calls, List.mem_filterMap]
  constructor
  · rintro ⟨d, -, hd⟩
    split at hd
    · cases hd; exact ⟨rfl, rfl, rfl, ‹_›⟩
    · cases hd
  · rintro ⟨rfl, h₂, h₃, hd⟩
    refine ⟨c.direction, by cases c.direction <;> simp, ?_⟩
    rw [if_pos hd, ← h₂, ← h₃]

end RustIo
