import Mathlib.Data.List.Basic
import Mathlib.Logic.Function.Basic

/-!
# Support — Machine

Transition systems given by guarded actions.  A machine has initial states, a guard `Enabled s a`
for every action, and the state `next s a` the action leads to; a step is an enabled action.

`Run C s s'` is a run from `s` to `s'` all of whose steps meet `C`, a condition on the state before
the step and the action; `ReachableBy C` are the states such runs reach from an initial state, and
`Reachable` drops the condition.  An invariant is proved by `ReachableBy.invariant`: it holds
initially and every step that meets the condition keeps it, where the step may assume that its
state is reachable and so use the invariants proved before.  `ReachableBy.avoiding` goes the other
way, from the state to the steps that led to it, when what a step did can be seen ever after.
`ReachableBy.refines` maps the states one machine reaches to states another one reaches.

A list of actions is a run when each of them is enabled in turn (`Follows`), which is decidable when
the guards are; `ReachableBy.of_follows` turns such a check into a reachable state.

`withHistory` adds a history variable to a machine, which its steps write and never read.
-/

namespace Support

/-- Initial states, the guard of an action, and its effect. -/
structure Machine (σ α : Type*) where
  Init : σ → Prop
  Enabled : σ → α → Prop
  next : σ → α → σ

namespace Machine

variable {σ α : Type*} (M : Machine σ α)

/-- A run from `s` all of whose steps meet `C`. -/
inductive Run (C : σ → α → Prop) (s : σ) : σ → Prop where
  | refl : Run C s s
  | more {s₁ : σ} {a : α} (h : Run C s s₁) (hC : C s₁ a) (ha : M.Enabled s₁ a) :
      Run C s (M.next s₁ a)

/-- The states that runs whose steps all meet `C` reach from an initial state. -/
def ReachableBy (C : σ → α → Prop) (s : σ) : Prop :=
  ∃ s₀, M.Init s₀ ∧ M.Run C s₀ s

/-- The states that any run reaches. -/
def Reachable (s : σ) : Prop := M.ReachableBy (fun _ _ => True) s

variable {M} {C : σ → α → Prop} {s s' : σ}

theorem Run.trans {s₁ : σ} (h₁ : M.Run C s s₁) (h₂ : M.Run C s₁ s') : M.Run C s s' := by
  induction h₂ with
  | refl => exact h₁
  | more _ hC ha ih => exact ih.more hC ha

theorem ReachableBy.of_init (h : M.Init s) : M.ReachableBy C s := ⟨s, h, .refl⟩

theorem ReachableBy.run (h : M.ReachableBy C s) (hr : M.Run C s s') : M.ReachableBy C s' := by
  obtain ⟨s₀, h₀, hs⟩ := h
  exact ⟨s₀, h₀, hs.trans hr⟩

/-- **Invariants.**  What holds initially, and is kept by every step that meets `C` from a state
such runs reach, holds in every state they reach. -/
theorem ReachableBy.invariant {I : σ → Prop} (h₀ : ∀ s, M.Init s → I s)
    (hs : ∀ s a, M.ReachableBy C s → I s → C s a → M.Enabled s a → I (M.next s a))
    (h : M.ReachableBy C s) : I s := by
  obtain ⟨s₀, hi, hr⟩ := h
  induction hr with
  | refl => exact h₀ _ hi
  | more hr hC ha ih => exact hs _ _ ⟨s₀, hi, hr⟩ ih hC ha

/-- A property that every step keeps is kept along a run. -/
theorem Run.keeps {I : σ → Prop} (hs : ∀ s a, I s → M.Enabled s a → I (M.next s a))
    (h : M.Run C s s') (hi : I s) : I s' := by
  induction h with
  | refl => exact hi
  | more _ _ ha ih => exact hs _ _ ih ha

/-- **Avoidance.**  When every step that does not meet `D` leads to a bad state, and bad states stay
bad, a run that ends in a state that is not bad meets `D` throughout. -/
theorem Run.avoiding {D : σ → α → Prop} {B : σ → Prop}
    (keep : ∀ s a, B s → M.Enabled s a → B (M.next s a))
    (bad : ∀ s a, ¬ D s a → M.Enabled s a → B (M.next s a)) (h : M.Run C s s') (hn : ¬ B s') :
    M.Run D s s' := by
  induction h with
  | refl => exact .refl
  | @more s₁ a _ _ ha ih =>
      refine .more (ih fun hb => hn (keep s₁ a hb ha)) ?_ ha
      by_contra hD
      exact hn (bad s₁ a hD ha)

theorem ReachableBy.avoiding {D : σ → α → Prop} {B : σ → Prop}
    (keep : ∀ s a, B s → M.Enabled s a → B (M.next s a))
    (bad : ∀ s a, ¬ D s a → M.Enabled s a → B (M.next s a)) (h : M.ReachableBy C s) (hn : ¬ B s) :
    M.ReachableBy D s := by
  obtain ⟨s₀, h₀, hr⟩ := h
  exact ⟨s₀, h₀, hr.avoiding keep bad hn⟩

/-- **Refinement.**  When every step of `M` from a state it reaches is, seen through `f`, a step of
`N` or no step at all, the states `M` reaches are seen as states that `N` reaches. -/
theorem ReachableBy.refines {σ' α' : Type*} {N : Machine σ' α'} {f : σ → σ'}
    (h₀ : ∀ s, M.Init s → N.Init (f s))
    (hs : ∀ s a, M.ReachableBy C s → C s a → M.Enabled s a →
      f (M.next s a) = f s ∨ ∃ b, N.Enabled (f s) b ∧ f (M.next s a) = N.next (f s) b)
    (h : M.ReachableBy C s) : N.Reachable (f s) := by
  refine h.invariant (I := fun s => N.Reachable (f s)) (fun s hi => .of_init (h₀ s hi)) ?_
  intro s a hr hi hC ha
  rcases hs s a hr hC ha with he | ⟨b, hb, he⟩
  · rw [he]; exact hi
  · rw [he]; exact hi.run (.more .refl trivial hb)

variable (M) in
/-- The state a list of actions leads to. -/
def runList (s : σ) (as : List α) : σ := as.foldl M.next s

variable (M C) in
/-- Each action of the list is enabled, and meets `C`, in the state the ones before it lead to. -/
def Follows (s : σ) : List α → Prop
  | [] => True
  | a :: as => C s a ∧ M.Enabled s a ∧ Follows (M.next s a) as

instance Follows.decidable [∀ s a, Decidable (C s a)] [∀ s a, Decidable (M.Enabled s a)] :
    ∀ (s : σ) (as : List α), Decidable (M.Follows C s as)
  | _, [] => inferInstanceAs (Decidable True)
  | s, a :: as =>
      have := Follows.decidable (M.next s a) as
      inferInstanceAs (Decidable (_ ∧ _ ∧ _))

theorem Follows.run {as : List α} (h : M.Follows C s as) : M.Run C s (M.runList s as) := by
  induction as generalizing s with
  | nil => exact .refl
  | cons a as ih =>
      obtain ⟨hC, ha, h⟩ := h
      exact (Run.more .refl hC ha).trans (ih h)

theorem ReachableBy.of_follows {l : List α} (h₀ : M.Init s) (h : M.Follows C s l) :
    M.ReachableBy C (M.runList s l) :=
  (ReachableBy.of_init h₀).run h.run

/-! ### Histories -/

variable {η : Type*} {h₀ : η} {record : σ → α → η → η}

variable (M) in
/-- `M` with a history of its run: what a step adds to it is read off the state before the step. -/
def withHistory (h₀ : η) (record : σ → α → η → η) : Machine (σ × η) α where
  Init x := M.Init x.1 ∧ x.2 = h₀
  Enabled x a := M.Enabled x.1 a
  next x a := (M.next x.1 a, record x.1 a x.2)

instance withHistory.decidable [∀ s a, Decidable (M.Enabled s a)] :
    ∀ x a, Decidable ((M.withHistory h₀ record).Enabled x a) :=
  fun x a => inferInstanceAs (Decidable (M.Enabled x.1 a))

/-- A history does not change what is reached. -/
theorem ReachableBy.of_withHistory {C : σ × η → α → Prop} {x : σ × η}
    (h : (M.withHistory h₀ record).ReachableBy C x) : M.Reachable x.1 :=
  ReachableBy.refines (M := M.withHistory h₀ record) (fun _ hi => hi.1)
    (fun _ a _ _ ha => .inr ⟨a, ha, rfl⟩) h

end Machine

/-! ### Threads

The threads of a machine are a function from identifiers to phases, and a step moves one of them.
-/

section Threads

variable {τ φ : Type*} [DecidableEq τ] {f : τ → φ} {P : φ → Prop} {t : τ} {x : φ}

/-- A phase some thread is in is still some thread's when the thread that moves was not in it. -/
theorem exists_update_of_not (h : ∃ u, P (f u)) (ht : ¬ P (f t)) :
    ∃ u, P (Function.update f t x u) := by
  obtain ⟨u, hu⟩ := h
  have hne : u ≠ t := fun e => ht (e ▸ hu)
  exact ⟨u, by rwa [Function.update_of_ne hne]⟩

end Threads

/-! ### Tables

A table is a function to an option type, and a step sets or clears one entry.
-/

section Tables

variable {κ α : Type*} [DecidableEq κ] {f : κ → Option α} {k j : κ} {x y : α}

theorem update_some_eq_some :
    Function.update f k (some x) j = some y ↔ (j = k ∧ x = y) ∨ (j ≠ k ∧ f j = some y) := by
  by_cases h : j = k
  · subst h; simp
  · simp [h]

theorem update_none_eq_some :
    Function.update f k none j = some y ↔ j ≠ k ∧ f j = some y := by
  by_cases h : j = k
  · subst h; simp
  · simp [h]

/-- One entry of a table is replaced: the entries are the same, but for the old one and the new
one. -/
theorem perm_filterMap_update {l : List κ} (hl : l.Nodup) (hk : k ∈ l) (o : Option α) :
    (l.filterMap (Function.update f k o) ++ (f k).toList).Perm (l.filterMap f ++ o.toList) := by
  have split : ∀ g : κ → Option α,
      (l.filterMap g).Perm ((g k).toList ++ (l.erase k).filterMap g) := by
    intro g
    have h := (List.perm_cons_erase hk).filterMap g
    rw [List.filterMap_cons] at h
    cases hg : g k <;> rw [hg] at h <;> exact h
  have same : (l.erase k).filterMap (Function.update f k o) = (l.erase k).filterMap f :=
    List.filterMap_congr fun j hj =>
      Function.update_of_ne (fun e => hl.not_mem_erase (e ▸ hj)) ..
  have new := split (Function.update f k o)
  rw [Function.update_self, same] at new
  have swap : ((o.toList ++ (l.erase k).filterMap f) ++ (f k).toList).Perm
      (((f k).toList ++ (l.erase k).filterMap f) ++ o.toList) := by
    rw [List.append_assoc (f k).toList]
    exact List.perm_append_comm.trans (List.perm_append_comm.append_left _)
  exact ((new.append_right _).trans swap).trans ((split f).symm.append_right _)

end Tables

/-! ### Logs

A log is a list, and a step adds an event at its end.
-/

theorem getElem?_concat {α : Type*} {l : List α} {a b : α} {i : ℕ} :
    (l ++ [a])[i]? = some b ↔ l[i]? = some b ∨ i = l.length ∧ a = b := by
  rcases Nat.lt_trichotomy i l.length with h | rfl | h
  · rw [List.getElem?_append_left h]; simp [Nat.ne_of_lt h]
  · simp
  · have h' : (l ++ [a]).length ≤ i := by simp; omega
    rw [List.getElem?_eq_none h', List.getElem?_eq_none (Nat.le_of_lt h)]
    simp [Nat.ne_of_gt h]

end Support
