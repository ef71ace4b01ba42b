import Mathlib.Data.List.Sort
import Mathlib.Data.List.TakeWhile

/-!
# Support — Structures

Models of two library types that verified programs share.

`Condvar τ` is a condition variable as the list of the threads blocked on it.  `wait` adds the
caller; a notification takes threads off the list, after which they may go on; a thread that leaves
the list without a notification woke up spuriously.

`MinHeap α le` is a binary heap that yields a least element for the total order `le`: the list of
its elements, with the proof that it is sorted.  A heap whose order ties elements may yield any of
the greatest ones: `IsTop le h x` says that `x` is one of them.
-/

namespace Support

/-! ### Condition variables -/

/-- A condition variable: the threads blocked on it. -/
structure Condvar (τ : Type*) where
  waiters : List τ

namespace Condvar

variable {τ : Type*}

def new : Condvar τ := ⟨[]⟩

/-- `t` blocks. -/
def wait (c : Condvar τ) (t : τ) : Condvar τ := ⟨t :: c.waiters⟩

def notifyAll (_ : Condvar τ) : Condvar τ := ⟨[]⟩

@[simp] theorem waiters_notifyAll (c : Condvar τ) : c.notifyAll.waiters = [] := rfl

variable [DecidableEq τ]

/-- The choices `notifyOne` has: a blocked thread, or none when no thread is blocked. -/
def CanNotify (c : Condvar τ) : Option τ → Prop
  | some t => t ∈ c.waiters
  | none => c.waiters = []

instance (c : Condvar τ) : ∀ o, Decidable (c.CanNotify o)
  | some _ => inferInstanceAs (Decidable (_ ∈ _))
  | none => inferInstanceAs (Decidable (_ = _))

def notifyOne (c : Condvar τ) : Option τ → Condvar τ
  | some t => ⟨c.waiters.filter (· ≠ t)⟩
  | none => c

/-- `t` stops waiting without a notification. -/
def wake (c : Condvar τ) (t : τ) : Condvar τ := ⟨c.waiters.filter (· ≠ t)⟩

end Condvar

/-! ### Heaps -/

/-- First by `k₁`, then by `k₂`. -/
def LexLe {α : Type*} (k₁ k₂ : α → ℕ) (a b : α) : Prop :=
  k₁ a < k₁ b ∨ k₁ a = k₁ b ∧ k₂ a ≤ k₂ b

namespace LexLe

variable {α : Type*} {k₁ k₂ : α → ℕ}

instance : DecidableRel (LexLe k₁ k₂) := fun _ _ => inferInstanceAs (Decidable (_ ∨ _ ∧ _))

instance : Std.Total (LexLe k₁ k₂) :=
  ⟨fun a b => by unfold LexLe; omega⟩

instance : IsTrans α (LexLe k₁ k₂) :=
  ⟨fun a b c => by unfold LexLe; omega⟩

instance : Std.Refl (LexLe k₁ k₂) :=
  ⟨fun a => by unfold LexLe; omega⟩

theorem fst_le {a b : α} (h : LexLe k₁ k₂ a b) : k₁ a ≤ k₁ b := by
  unfold LexLe at h; omega

theorem not_of_lt {a b : α} (h : k₁ a < k₁ b ∨ k₁ a = k₁ b ∧ k₂ a < k₂ b) :
    ¬ LexLe k₁ k₂ b a := by
  unfold LexLe; omega

end LexLe

/-- A heap that yields a least element for `le`, as the sorted list of its elements. -/
structure MinHeap (α : Type*) (le : α → α → Prop) where
  elems : List α
  sorted : elems.Pairwise le

namespace MinHeap

variable {α : Type*} {le : α → α → Prop}

def empty : MinHeap α le := ⟨[], .nil⟩

instance : Membership α (MinHeap α le) := ⟨fun h x => x ∈ h.elems⟩

theorem mem_def {h : MinHeap α le} {x : α} : x ∈ h ↔ x ∈ h.elems := Iff.rfl

def push [DecidableRel le] [Std.Total le] [IsTrans α le] (h : MinHeap α le) (x : α) :
    MinHeap α le :=
  ⟨h.elems.orderedInsert le x, h.sorted.orderedInsert _ _⟩

def peek (h : MinHeap α le) : Option α := h.elems.head?

def pop (h : MinHeap α le) : MinHeap α le := ⟨h.elems.tail, h.sorted.tail⟩

/-- The elements taken by `while let Some(x) = peek() { if p(x) { pop() } else { break } }`, and the
heap that is left. -/
def popWhile (h : MinHeap α le) (p : α → Bool) : List α × MinHeap α le :=
  (h.elems.takeWhile p, ⟨h.elems.dropWhile p, h.sorted.sublist (List.dropWhile_sublist p)⟩)

@[simp] theorem not_mem_empty {x : α} : ¬ x ∈ (empty : MinHeap α le) := List.not_mem_nil

@[simp] theorem mem_push [DecidableRel le] [Std.Total le] [IsTrans α le] {h : MinHeap α le}
    {x y : α} : y ∈ h.push x ↔ y = x ∨ y ∈ h :=
  List.mem_orderedInsert le

theorem mem_of_peek {h : MinHeap α le} {x : α} (hx : h.peek = some x) : x ∈ h :=
  List.mem_of_mem_head? hx

/-- The top of the heap is at most any element. -/
theorem peek_le [Std.Refl le] {h : MinHeap α le} {x : α} (hx : x ∈ h) :
    ∃ m, h.peek = some m ∧ le m x := by
  obtain ⟨elems, sorted⟩ := h
  cases elems with
  | nil => exact absurd hx List.not_mem_nil
  | cons m ms =>
      refine ⟨m, rfl, ?_⟩
      rcases List.mem_cons.mp hx with rfl | hx
      · exact Std.Refl.refl x
      · exact (List.pairwise_cons.mp sorted).1 x hx

/-- `pop` removes the top and nothing else. -/
theorem mem_pop_or_eq {h : MinHeap α le} {x m : α} (hx : x ∈ h) (hm : h.peek = some m) :
    x = m ∨ x ∈ h.pop := by
  obtain ⟨elems, sorted⟩ := h
  cases elems with
  | nil => exact absurd hx List.not_mem_nil
  | cons y ys =>
      obtain rfl : y = m := Option.some.inj hm
      exact List.mem_cons.mp hx

theorem elems_of_peek {h : MinHeap α le} {m : α} (hm : h.peek = some m) :
    h.elems = m :: h.pop.elems := by
  obtain ⟨elems, sorted⟩ := h
  cases elems with
  | nil => cases hm
  | cons y ys =>
      obtain rfl : y = m := Option.some.inj hm
      rfl

theorem perm_push [DecidableRel le] [Std.Total le] [IsTrans α le] (h : MinHeap α le) (x : α) :
    (h.push x).elems.Perm (x :: h.elems) :=
  List.perm_orderedInsert le x h.elems

section PopWhile

variable {h : MinHeap α le} {p : α → Bool} {x y : α}

theorem popWhile_append (h : MinHeap α le) (p : α → Bool) :
    (h.popWhile p).1 ++ (h.popWhile p).2.elems = h.elems :=
  List.takeWhile_append_dropWhile

theorem mem_popWhile (hx : x ∈ h) : x ∈ (h.popWhile p).1 ∨ x ∈ (h.popWhile p).2 := by
  rw [mem_def, ← popWhile_append h p] at hx
  exact List.mem_append.mp hx

theorem mem_of_mem_popWhile (hx : x ∈ (h.popWhile p).2) : x ∈ h := by
  rw [mem_def, ← popWhile_append h p]
  exact List.mem_append_right _ hx

theorem of_mem_taken (hx : x ∈ (h.popWhile p).1) : x ∈ h ∧ p x = true := by
  constructor
  · rw [mem_def, ← popWhile_append h p]
    exact List.mem_append_left _ hx
  · exact List.mem_takeWhile_imp hx

/-- What is taken of the heap is below what is left. -/
theorem le_of_taken (hx : x ∈ (h.popWhile p).1) (hy : y ∈ (h.popWhile p).2) : le x y := by
  have sorted := h.sorted
  rw [← popWhile_append h p] at sorted
  exact (List.pairwise_append.mp sorted).2.2 x hx y hy

theorem sorted_taken (h : MinHeap α le) (p : α → Bool) : (h.popWhile p).1.Pairwise le := by
  have sorted := h.sorted
  rw [← popWhile_append h p] at sorted
  exact (List.pairwise_append.mp sorted).1

end PopWhile

end MinHeap

/-- `x` is an element of `h` that no other one exceeds. -/
def IsTop {α : Type*} (le : α → α → Prop) (h : List α) (x : α) : Prop :=
  x ∈ h ∧ ∀ y ∈ h, le y x

instance {α : Type*} [DecidableEq α] (le : α → α → Prop) [DecidableRel le] (h : List α) (x : α) :
    Decidable (IsTop le h x) :=
  inferInstanceAs (Decidable (_ ∧ ∀ y ∈ h, _))

theorem exists_isTop {α : Type*} {le : α → α → Prop} (total : ∀ x y, le x y ∨ le y x)
    (trans : ∀ {x y z}, le x y → le y z → le x z) {h : List α} (hne : h ≠ []) :
    ∃ x, IsTop le h x := by
  have refl : ∀ x, le x x := fun x => (total x x).elim id id
  induction h with
  | nil => exact absurd rfl hne
  | cons a h ih =>
      rcases h with - | ⟨b, h⟩
      · exact ⟨a, List.mem_cons_self, fun y hy => List.mem_singleton.mp hy ▸ refl a⟩
      · obtain ⟨x, hx, top⟩ := ih (List.cons_ne_nil b h)
        rcases total a x with hle | hle
        · refine ⟨x, List.mem_cons_of_mem a hx, List.forall_mem_cons.mpr ⟨hle, top⟩⟩
        · refine ⟨a, List.mem_cons_self, List.forall_mem_cons.mpr ⟨refl a, fun y hy => ?_⟩⟩
          exact trans (top y hy) hle

end Support
