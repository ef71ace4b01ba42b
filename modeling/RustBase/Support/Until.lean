import Mathlib.Data.Nat.Notation

/-!
# Support — Until

Steps that a choice of the environment decides.  `Until next C B P s`: whatever choices that meet
`C` are made from `s` on, a state in which `P` holds is reached, and `B` holds until then.

Such statements compose (`Until.bind`), are carried along a simulation (`Until.map`), and say of
every sequence of choices that the states it leads to (`trace`) get there (`Until.exists_trace`).
-/

namespace Support

variable {σ ι : Type*} (next : σ → ι → σ) (C : ι → Prop) (B : σ → Prop)

/-- `B` until `P`, whatever the choices. -/
inductive Until (P : σ → Prop) : σ → Prop where
  | now {s : σ} (h : P s) : Until P s
  | later {s : σ} (hb : B s) (h : ∀ i, C i → Until P (next s i)) : Until P s

/-- The states a sequence of choices leads to. -/
def trace (s : σ) (is : ℕ → ι) : ℕ → σ
  | 0 => s
  | k + 1 => next (trace s is k) (is k)

variable {next C B} {P Q : σ → Prop} {s : σ}

theorem trace_add (is : ℕ → ι) (j k : ℕ) :
    trace next s is (j + k) = trace next (trace next s is j) (fun i => is (j + i)) k := by
  induction k with
  | zero => rfl
  | succ k ih => rw [← Nat.add_assoc]; simp only [trace, ih]

namespace Until

theorem bind (h : Until next C B P s) (hq : ∀ s, P s → Until next C B Q s) :
    Until next C B Q s := by
  induction h with
  | now h => exact hq _ h
  | later hb _ ih => exact .later hb ih

/-- Of two systems where `B` holds, a step of the second is, seen through `f`, a step of the
first. -/
theorem map {σ' ι' : Type*} {next' : σ' → ι' → σ'} {C' : ι' → Prop} {B' : σ' → Prop}
    {Q : σ' → Prop} {f : σ → σ'} {g : ι' → ι} (hC : ∀ i, C' i → C (g i))
    (hB : ∀ s, B s → B' (f s)) (hn : ∀ s i, B s → next' (f s) i = f (next s (g i)))
    (hP : ∀ s, P s → Q (f s)) (h : Until next C B P s) : Until next' C' B' Q (f s) := by
  induction h with
  | now h => exact .now (hP _ h)
  | later hb _ ih => exact .later (hB _ hb) fun i hi => hn _ i hb ▸ ih (g i) (hC i hi)

theorem exists_trace (h : Until next C B P s) {u : ℕ → ι} (hu : ∀ k, C (u k)) :
    ∃ k, P (trace next s u k) := by
  induction h generalizing u with
  | now h => exact ⟨0, h⟩
  | later _ _ ih =>
      obtain ⟨k, hk⟩ := ih (u 0) (hu 0) (u := fun i => u (1 + i)) fun i => hu _
      refine ⟨1 + k, ?_⟩
      rw [trace_add]
      exact hk

end Until

end Support
