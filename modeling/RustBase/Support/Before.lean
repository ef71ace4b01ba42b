import Mathlib.Data.List.Basic

/-!
# Support — Before

`Before l a b`: in the list `l` of things in the order they happened, `a` comes before an occurrence
of `b`.  Lists that only grow keep it, what is there comes before what is appended, and a sorted
list has its smaller elements before its greater ones.
-/

namespace Support

variable {α β : Type*} {l m : List α} {a b : α}

def Before (l : List α) (a b : α) : Prop := ∃ l₁ l₂, l = l₁ ++ b :: l₂ ∧ a ∈ l₁

namespace Before

theorem mem (h : Before l a b) : a ∈ l := by
  obtain ⟨l₁, l₂, rfl, ha⟩ := h
  exact List.mem_append_left _ ha

theorem append_right (h : Before l a b) (m : List α) : Before (l ++ m) a b := by
  obtain ⟨l₁, l₂, rfl, ha⟩ := h
  exact ⟨l₁, l₂ ++ m, by simp, ha⟩

theorem append_left (h : Before l a b) (m : List α) : Before (m ++ l) a b := by
  obtain ⟨l₁, l₂, rfl, ha⟩ := h
  exact ⟨m ++ l₁, l₂, by simp, List.mem_append_right _ ha⟩

theorem of_mem (ha : a ∈ l) (hb : b ∈ m) : Before (l ++ m) a b := by
  obtain ⟨m₁, m₂, rfl⟩ := List.append_of_mem hb
  exact ⟨l ++ m₁, m₂, by simp, List.mem_append_left _ ha⟩

theorem map (h : Before l a b) (f : α → β) : Before (l.map f) (f a) (f b) := by
  obtain ⟨l₁, l₂, rfl, ha⟩ := h
  exact ⟨l₁.map f, l₂.map f, by simp, List.mem_map_of_mem ha⟩

theorem filter (h : Before l a b) {p : α → Bool} (ha : p a = true) (hb : p b = true) :
    Before (l.filter p) a b := by
  obtain ⟨l₁, l₂, rfl, hm⟩ := h
  refine ⟨l₁.filter p, l₂.filter p, ?_, List.mem_filter.mpr ⟨hm, ha⟩⟩
  rw [List.filter_append, List.filter_cons_of_pos hb]

theorem of_filter {p : α → Bool} (h : Before (l.filter p) a b) : Before l a b := by
  obtain ⟨l₁, l₂, e, ha⟩ := h
  obtain ⟨k₁, k₂, rfl, e₁, e₂⟩ := List.filter_eq_append_iff.mp e
  obtain ⟨m₁, m₂, rfl, -, -, -⟩ := List.filter_eq_cons_iff.mp e₂
  have hk : a ∈ k₁ := List.mem_of_mem_filter (e₁ ▸ ha)
  exact ⟨k₁ ++ m₁, m₂, by simp, List.mem_append_left _ hk⟩

/-- Of two elements of a sorted list, the one that is not above the other comes first. -/
theorem of_pairwise {r : α → α → Prop} (hl : l.Pairwise r) (ha : a ∈ l) (hb : b ∈ l)
    (hr : ¬ r b a) (hne : a ≠ b) : Before l a b := by
  obtain ⟨l₁, l₂, rfl⟩ := List.append_of_mem hb
  refine ⟨l₁, l₂, rfl, ?_⟩
  rcases List.mem_append.mp ha with ha | ha
  · exact ha
  · rcases List.mem_cons.mp ha with e | ha
    · exact absurd e hne
    · have sorted := (List.pairwise_append.mp hl).2.1
      exact absurd ((List.pairwise_cons.mp sorted).1 a ha) hr

/-- What comes before an element of an initial part is in that part. -/
theorem of_append (hn : (l ++ m).Nodup) (h : Before (l ++ m) a b) (hb : b ∈ l) : Before l a b := by
  obtain ⟨l₁, l₂, e, ha⟩ := h
  obtain ⟨k₁, k₂, rfl⟩ := List.append_of_mem hb
  have e' : k₁ ++ b :: (k₂ ++ m) = l₁ ++ b :: l₂ := by rw [← e]; simp
  have hn' : (k₁ ++ b :: (k₂ ++ m)).Nodup := by simpa using hn
  obtain ⟨-, hcons, hdis⟩ := List.nodup_append.mp hn'
  have left : b ∉ k₁ := fun hk => hdis b hk b List.mem_cons_self rfl
  have right : b ∉ k₂ ++ m := (List.nodup_cons.mp hcons).1
  obtain ⟨rfl, -, -⟩ := (List.append_cons_inj_of_notMem left right).mp e'
  exact ⟨k₁, k₂, rfl, ha⟩

end Before

end Support
