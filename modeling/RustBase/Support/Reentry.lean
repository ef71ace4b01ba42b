import Mathlib.Data.List.Basic

/-!
# Support — Reentry

One lock that a thread may not take twice, and operations that invoke callbacks while they have it.
`LockUse` says of every operation whether it takes the lock and which callbacks it invokes in its
critical section.  `inside c` are the operations that run before the callback `c` returns, those of
further callbacks included; the thread has the lock all along, so it does not matter how they nest.

`LockUse.Reenters inside a`: while the thread runs `a`, with its callbacks, it asks for the lock
when it has it.  By `reenters_iff` this is so just when a callback of `a` runs an operation that
takes the lock.
-/

namespace Support

/-- What a thread does with the lock. -/
inductive LockEvent (χ : Type*) where
  | lock
  | unlock
  | call (c : χ)

namespace LockEvent

variable {χ : Type*}

/-- A critical section that invokes the callbacks. -/
def critical (cs : List χ) : List (LockEvent χ) := .lock :: (cs.map .call ++ [.unlock])

/-- The callbacks run in their place. -/
def inPlace (body : χ → List (LockEvent χ)) : List (LockEvent χ) → List (LockEvent χ)
  | [] => []
  | .call c :: es => body c ++ inPlace body es
  | e :: es => e :: inPlace body es

/-- The thread asks for the lock when it has it. -/
def reacquires : Bool → List (LockEvent χ) → Bool
  | _, [] => false
  | held, .lock :: es => held || reacquires true es
  | _, .unlock :: es => reacquires false es
  | held, .call _ :: es => reacquires held es

end LockEvent

/-- How the operations use the lock. -/
structure LockUse (α χ : Type*) where
  /-- the operation takes the lock -/
  takes : α → Bool
  /-- the callbacks it invokes in its critical section -/
  under : α → List χ

namespace LockUse

open LockEvent

variable {α χ : Type*} (U : LockUse α χ) (inside : χ → List α)

def events (a : α) : List (LockEvent χ) := if U.takes a then critical (U.under a) else []

def Reenters (a : α) : Prop :=
  reacquires false (inPlace (fun c => (inside c).flatMap U.events) (U.events a)) = true

instance (a : α) : Decidable (U.Reenters inside a) := inferInstanceAs (Decidable (_ = _))

variable {U inside}

/-- Operations run by a thread that has the lock: the first that takes it is one too many. -/
theorem reacquires_operations (bs : List α) (es : List (LockEvent χ)) :
    reacquires true (bs.flatMap U.events ++ es) = true ↔
      (∃ b ∈ bs, U.takes b = true) ∨ reacquires true es = true := by
  induction bs with
  | nil => simp
  | cons b bs ih =>
      by_cases hb : U.takes b = true
      · simp [events, hb, critical, reacquires]
      · simp [events, hb, ih]

theorem reacquires_callbacks (cs : List χ) :
    reacquires true (inPlace (fun c => (inside c).flatMap U.events) (cs.map .call ++ [.unlock])) =
      true ↔ ∃ c ∈ cs, ∃ b ∈ inside c, U.takes b = true := by
  induction cs with
  | nil => simp [inPlace, reacquires]
  | cons c cs ih => simp [inPlace, reacquires_operations, ih]

/-- **Reentry.**  An operation reenters just when it takes the lock and a callback of its critical
section runs an operation that does. -/
theorem reenters_iff {a : α} : U.Reenters inside a ↔
    U.takes a = true ∧ ∃ c ∈ U.under a, ∃ b ∈ inside c, U.takes b = true := by
  by_cases ha : U.takes a = true
  · simp [Reenters, events, ha, critical, inPlace, reacquires, reacquires_callbacks]
  · simp [Reenters, events, ha, inPlace, reacquires]

end LockUse

end Support
