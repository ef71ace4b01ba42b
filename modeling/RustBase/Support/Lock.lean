import RustBase.Support.Machine

/-!
# Support — Lock

Test-and-set locks: a flag for every key, and for every thread the key it holds, if any.
`Exclusive flag owner` says that a flag is set exactly while one thread holds its key.  It is kept
by a thread that acquires a key whose flag is clear, by one that releases its key, and by steps
that touch neither.
-/

namespace Support

variable {κ τ : Type*} [DecidableEq κ] [DecidableEq τ]

/-- A flag is set exactly while one thread holds its key. -/
structure Exclusive (flag : κ → Bool) (owner : τ → Option κ) : Prop where
  held : ∀ k, flag k = true → ∃ t, owner t = some k
  flagged : ∀ t k, owner t = some k → flag k = true
  unique : ∀ t u k, owner t = some k → owner u = some k → t = u

namespace Exclusive

variable {flag flag' : κ → Bool} {owner owner' : τ → Option κ} {k : κ} {t : τ}

omit [DecidableEq κ] [DecidableEq τ] in
theorem congr (h : Exclusive flag owner) (hf : ∀ k, flag' k = flag k)
    (ho : ∀ t, owner' t = owner t) : Exclusive flag' owner' := by
  obtain rfl : flag' = flag := funext hf
  obtain rfl : owner' = owner := funext ho
  exact h

omit [DecidableEq κ] [DecidableEq τ] in
theorem iff_existsUnique (h : Exclusive flag owner) (k : κ) :
    flag k = true ↔ ∃! t, owner t = some k := by
  refine ⟨fun hk => ?_, fun ⟨t, ht, _⟩ => h.flagged t k ht⟩
  obtain ⟨t, ht⟩ := h.held k hk
  exact ⟨t, ht, fun u hu => h.unique u t k hu ht⟩

theorem acquire (h : Exclusive flag owner) (hk : flag k = false) (ht : owner t = none) :
    Exclusive (Function.update flag k true) (Function.update owner t (some k)) := by
  -- the only thread whose key changes is `t`, and no thread held `k`
  have free : ∀ u, owner u ≠ some k := fun u hu => by
    rw [h.flagged u k hu] at hk; cases hk
  refine ⟨fun j hj => ?_, fun u j hu => ?_, fun u v j hu hv => ?_⟩
  · by_cases e : j = k
    · subst e; exact ⟨t, Function.update_self ..⟩
    · rw [Function.update_of_ne e] at hj
      obtain ⟨u, hu⟩ := h.held j hj
      have hut : u ≠ t := fun e' => by rw [e', ht] at hu; cases hu
      exact ⟨u, by rw [Function.update_of_ne hut, hu]⟩
  · rcases update_some_eq_some.mp hu with ⟨-, rfl⟩ | ⟨-, hu⟩
    · exact Function.update_self ..
    · have e : j ≠ k := fun e => free u (e ▸ hu)
      rw [Function.update_of_ne e]; exact h.flagged u j hu
  · rcases update_some_eq_some.mp hu with ⟨eu, rfl⟩ | ⟨-, hu'⟩
    · rcases update_some_eq_some.mp hv with ⟨ev, -⟩ | ⟨-, hv'⟩
      · rw [eu, ev]
      · exact absurd hv' (free v)
    · rcases update_some_eq_some.mp hv with ⟨-, rfl⟩ | ⟨-, hv'⟩
      · exact absurd hu' (free u)
      · exact h.unique u v j hu' hv'

theorem release (h : Exclusive flag owner) (ht : owner t = some k) :
    Exclusive (Function.update flag k false) (Function.update owner t none) := by
  have other : ∀ {u j}, Function.update owner t none u = some j → owner u = some j ∧ j ≠ k :=
    fun {u j} hu => by
      obtain ⟨e, hu⟩ := update_none_eq_some.mp hu
      exact ⟨hu, fun e' => e (h.unique u t k (e' ▸ hu) ht)⟩
  refine ⟨fun j hj => ?_, fun u j hu => ?_, fun u v j hu hv => ?_⟩
  · have e : j ≠ k := fun e => by rw [e, Function.update_self] at hj; cases hj
    rw [Function.update_of_ne e] at hj
    obtain ⟨u, hu⟩ := h.held j hj
    have hut : u ≠ t := fun e' => e (Option.some.inj ((e' ▸ hu).symm.trans ht))
    exact ⟨u, by rw [Function.update_of_ne hut, hu]⟩
  · obtain ⟨hu, e⟩ := other hu
    rw [Function.update_of_ne e]; exact h.flagged u j hu
  · exact h.unique u v j (other hu).1 (other hv).1

end Exclusive

end Support
