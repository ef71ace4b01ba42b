import RustBase.Support.Machine

/-!
# Support — Progress

Something happens within a number of steps.  A run is a list of actions, and some of them are the
work: the steps of the thread that has to do something.  When every step of the work lowers a
measure or gets there, and no other step raises it, a run with more work in it than the measure
gets there (`Follows.exists_of_rank`).

What the other steps are, how many there are and how they come in between does not matter.
-/

namespace Support.Machine

variable {σ α : Type*} {M : Machine σ α} {C : σ → α → Prop} {s : σ}

/-- **Progress.**  From a state where `P` holds, every step that meets `C` leads to `Q` or to a state
where `P` still holds; the steps of the work `W` lower the measure, and the others do not raise it.
A run with more work than the measure comes to a state where `Q` holds. -/
theorem Follows.exists_of_rank {W : α → Prop} [DecidablePred W] {P Q : σ → Prop} (rank : σ → ℕ)
    (hs : ∀ s a, P s → C s a → M.Enabled s a → Q (M.next s a) ∨
      P (M.next s a) ∧ rank (M.next s a) + (if W a then 1 else 0) ≤ rank s)
    {as : List α} (h : M.Follows C s as) (hP : P s) (hn : rank s < as.countP (W ·)) :
    ∃ l₁ l₂, as = l₁ ++ l₂ ∧ Q (M.runList s l₁) := by
  induction as generalizing s with
  | nil => cases hn
  | cons a as ih =>
      obtain ⟨hC, ha, h⟩ := h
      rcases hs s a hP hC ha with hQ | ⟨hP', hr⟩
      · exact ⟨[a], as, rfl, hQ⟩
      · have more : rank (M.next s a) < as.countP (W ·) := by
          rw [List.countP_cons] at hn
          simp only [decide_eq_true_eq] at hn
          omega
        obtain ⟨l₁, l₂, rfl, hQ⟩ := ih h hP' more
        exact ⟨a :: l₁, l₂, rfl, hQ⟩

end Support.Machine
