import Mathlib.Data.List.Nodup
import Mathlib.Data.List.Perm.Basic

/-!
# Support — Ledger

Counting jobs that move between places.  A job has a number and may be counted or not; a place holds
a list of jobs.  `Ledger held opened closed count next` says that every job is at one place, that
the numbers from `next` on are unused, that the counted jobs are those whose number is in `opened`,
that no closed job is held any more, and that `count` is the number of jobs opened and not closed.

The rules are one for each thing that can happen to a job: it is issued (`issue`), moved (`move`),
given up (`drop`), opened (`open`) and closed (`close`).  `Step` lists them, so that a program says
once what each of its steps does to the jobs; `step` keeps the ledger, and `Whole.step` keeps
`Whole`, that every job opened and not closed is held, as long as no counted job is given up.
-/

namespace Support

/-- The numbers of a list of jobs. -/
abbrev jobNums (l : List (ℕ × Bool)) : List ℕ := l.map Prod.fst

structure Ledger {ℓ : Type*} (held : ℓ → List (ℕ × Bool)) (opened closed : List ℕ)
    (count next : ℕ) : Prop where
  nodup : ∀ a, (jobNums (held a)).Nodup
  unique : ∀ a b k, k ∈ jobNums (held a) → k ∈ jobNums (held b) → a = b
  counted : ∀ a, ∀ x ∈ held a, x.1 ∈ opened ↔ x.2 = true
  alive : ∀ a, ∀ k ∈ jobNums (held a), k ∉ closed ∧ k < next
  opened_nodup : opened.Nodup
  opened_lt : ∀ k ∈ opened, k < next
  closed_lt : ∀ k ∈ closed, k < next
  count_eq : count = (opened.filter (· ∉ closed)).length

namespace Ledger

variable {ℓ : Type*} {held held' : ℓ → List (ℕ × Bool)} {opened closed : List ℕ}
  {count next : ℕ} {a b : ℓ} {x : ℕ × Bool}

theorem empty (h : ∀ a, held a = []) : Ledger held [] [] 0 0 := by
  refine ⟨fun a => ?_, fun a _ _ hk => ?_, fun a x hx => ?_, fun a k hk => ?_, .nil, nofun, nofun,
    rfl⟩
  · rw [h a]; exact .nil
  · rw [h a] at hk; cases hk
  · rw [h a] at hx; cases hx
  · rw [h a] at hk; cases hk

/-- The order of the jobs at a place does not matter. -/
theorem perm (h : Ledger held opened closed count next) (hp : ∀ a, (held' a).Perm (held a)) :
    Ledger held' opened closed count next := by
  have nums : ∀ a, (jobNums (held' a)).Perm (jobNums (held a)) := fun a => (hp a).map _
  exact ⟨fun a => (nums a).nodup_iff.mpr (h.nodup a),
    fun a b k ha hb => h.unique a b k ((nums a).mem_iff.mp ha) ((nums b).mem_iff.mp hb),
    fun a x hx => h.counted a x ((hp a).mem_iff.mp hx),
    fun a k hk => h.alive a k ((nums a).mem_iff.mp hk), h.opened_nodup, h.opened_lt, h.closed_lt,
    h.count_eq⟩

/-- A job leaves its place. -/
theorem drop (h : Ledger held opened closed count next) (ha : (held a).Perm (x :: held' a))
    (ho : ∀ c, c ≠ a → held' c = held c) : Ledger held' opened closed count next := by
  have sub : ∀ c, held' c ⊆ held c := fun c y hy => by
    by_cases e : c = a
    · subst e; exact ha.mem_iff.mpr (.tail _ hy)
    · rwa [← ho c e]
  have nums : ∀ c k, k ∈ jobNums (held' c) → k ∈ jobNums (held c) := fun c _ hk =>
    List.map_subset _ (sub c) hk
  refine ⟨fun c => ?_, fun c d k hc hd => h.unique c d k (nums c k hc) (nums d k hd),
    fun c x hx => h.counted c x (sub c hx), fun c k hk => h.alive c k (nums c k hk),
    h.opened_nodup, h.opened_lt, h.closed_lt, h.count_eq⟩
  by_cases e : c = a
  · subst e
    exact ((ha.map Prod.fst).nodup_iff.mp (h.nodup c)).of_cons
  · rw [ho c e]; exact h.nodup c

/-- The job that leaves was nowhere else. -/
theorem not_held_drop (h : Ledger held opened closed count next)
    (ha : (held a).Perm (x :: held' a)) (ho : ∀ c, c ≠ a → held' c = held c) (c : ℓ) :
    x.1 ∉ jobNums (held' c) := by
  intro hk
  have here : x.1 ∈ jobNums (held a) := List.mem_map.mpr ⟨x, ha.mem_iff.mpr (.head _), rfl⟩
  by_cases e : c = a
  · subst e
    exact (List.nodup_cons.mp ((ha.map Prod.fst).nodup_iff.mp (h.nodup c))).1 hk
  · rw [ho c e] at hk
    exact e (h.unique c a _ hk here)

/-- A job that is nowhere arrives at a place. -/
theorem insert (h : Ledger held opened closed count next) (hb : (held' b).Perm (x :: held b))
    (ho : ∀ c, c ≠ b → held' c = held c) (hx : ∀ c, x.1 ∉ jobNums (held c))
    (hopen : x.1 ∈ opened ↔ x.2 = true) (hc : x.1 ∉ closed) (hn : x.1 < next) :
    Ledger held' opened closed count next := by
  have cases_mem : ∀ {c y}, y ∈ held' c → (c = b ∧ y = x) ∨ y ∈ held c := fun {c y} hy => by
    by_cases e : c = b
    · subst e
      rcases List.mem_cons.mp (hb.mem_iff.mp hy) with rfl | hy
      · exact .inl ⟨rfl, rfl⟩
      · exact .inr hy
    · rw [ho c e] at hy; exact .inr hy
  have cases_num : ∀ {c k}, k ∈ jobNums (held' c) → (c = b ∧ k = x.1) ∨ k ∈ jobNums (held c) :=
    fun {c k} hk => by
      obtain ⟨y, hy, rfl⟩ := List.mem_map.mp hk
      rcases cases_mem hy with ⟨rfl, rfl⟩ | hy
      · exact .inl ⟨rfl, rfl⟩
      · exact .inr (List.mem_map.mpr ⟨y, hy, rfl⟩)
  refine ⟨fun c => ?_, fun c d k hkc hkd => ?_, fun c y hy => ?_, fun c k hk => ?_,
    h.opened_nodup, h.opened_lt, h.closed_lt, h.count_eq⟩
  · by_cases e : c = b
    · subst e
      exact (hb.map Prod.fst).nodup_iff.mpr (List.nodup_cons.mpr ⟨hx c, h.nodup c⟩)
    · rw [ho c e]; exact h.nodup c
  · rcases cases_num hkc with ⟨rfl, rfl⟩ | hkc
    · rcases cases_num hkd with ⟨rfl, -⟩ | hkd
      · rfl
      · exact absurd hkd (hx d)
    · rcases cases_num hkd with ⟨rfl, rfl⟩ | hkd
      · exact absurd hkc (hx c)
      · exact h.unique c d k hkc hkd
  · rcases cases_mem hy with ⟨-, rfl⟩ | hy
    · exact hopen
    · exact h.counted c y hy
  · rcases cases_num hk with ⟨-, rfl⟩ | hk
    · exact ⟨hc, hn⟩
    · exact h.alive c k hk

theorem mem_of_perm {l l' : List (ℕ × Bool)} (ha : l.Perm (x :: l')) : x ∈ l :=
  ha.mem_iff.mpr (.head _)

theorem alive_of_mem (h : Ledger held opened closed count next) (hx : x ∈ held a) :
    x.1 ∉ closed ∧ x.1 < next :=
  h.alive a _ (List.mem_map.mpr ⟨x, hx, rfl⟩)

/-- A job moves to another place. -/
theorem move [DecidableEq ℓ] (h : Ledger held opened closed count next) (hab : a ≠ b)
    (ha : (held a).Perm (x :: held' a)) (hb : (held' b).Perm (x :: held b))
    (ho : ∀ c, c ≠ a → c ≠ b → held' c = held c) : Ledger held' opened closed count next := by
  -- between the two places, the job is nowhere
  let mid := Function.update held' b (held b)
  have mid_a : (held a).Perm (x :: mid a) := by simpa [mid, hab] using ha
  have mid_o : ∀ c, c ≠ a → mid c = held c := fun c hc => by
    by_cases e : c = b
    · subst e; simp [mid]
    · simp [mid, e, ho c hc e]
  have mid_b : mid b = held b := by simp [mid]
  have hx := mem_of_perm ha
  refine (h.drop mid_a mid_o).insert (b := b) (x := x) (mid_b ▸ hb) (fun c e => by simp [mid, e])
    (h.not_held_drop mid_a mid_o) (h.counted a x hx) (h.alive_of_mem hx).1 (h.alive_of_mem hx).2

/-- The next number is issued to a job that is not counted. -/
theorem issue (h : Ledger held opened closed count next)
    (hb : (held' b).Perm ((next, false) :: held b)) (ho : ∀ c, c ≠ b → held' c = held c) :
    Ledger held' opened closed count (next + 1) := by
  have up : Ledger held opened closed count (next + 1) :=
    { h with
      alive := fun a k hk => ⟨(h.alive a k hk).1, Nat.lt_succ_of_lt (h.alive a k hk).2⟩
      opened_lt := fun k hk => Nat.lt_succ_of_lt (h.opened_lt k hk)
      closed_lt := fun k hk => Nat.lt_succ_of_lt (h.closed_lt k hk) }
  refine up.insert hb ho (fun c hk => ?_) ?_ (fun hk => ?_) (Nat.lt_succ_self _)
  · exact Nat.lt_irrefl _ (h.alive c _ hk).2
  · exact iff_of_false (fun hk => Nat.lt_irrefl _ (h.opened_lt _ hk)) nofun
  · exact Nat.lt_irrefl _ (h.closed_lt _ hk)

/-- A job that was not counted is counted from here on. -/
theorem «open» {k : ℕ} {l : List (ℕ × Bool)} (h : Ledger held opened closed count next)
    (ha : (held a).Perm ((k, false) :: l)) (ha' : (held' a).Perm ((k, true) :: l))
    (ho : ∀ c, c ≠ a → held' c = held c) :
    Ledger held' (opened ++ [k]) closed (count + 1) next := by
  classical
  let mid := Function.update held a l
  have mid_a : (held a).Perm ((k, false) :: mid a) := by simpa [mid] using ha
  have mid_o : ∀ c, c ≠ a → mid c = held c := fun c e => by simp [mid, e]
  have nowhere : ∀ c, k ∉ jobNums (mid c) := h.not_held_drop mid_a mid_o
  have hx := h.alive_of_mem (mem_of_perm ha)
  have new : k ∉ opened := fun hk => by cases (h.counted a _ (mem_of_perm ha)).mp hk
  have hm := h.drop mid_a mid_o
  have opened' : Ledger mid (opened ++ [k]) closed (count + 1) next := by
    refine ⟨hm.nodup, hm.unique, fun c y hy => ?_, hm.alive, ?_, fun j hj => ?_, hm.closed_lt, ?_⟩
    · have ne : y.1 ≠ k := fun e => nowhere c (e ▸ List.mem_map.mpr ⟨y, hy, rfl⟩)
      rw [List.mem_append, List.mem_singleton, or_iff_left ne]
      exact hm.counted c y hy
    · refine List.nodup_append.mpr ⟨h.opened_nodup, List.nodup_singleton k, fun i hi j hj e => ?_⟩
      exact new (List.mem_singleton.mp hj ▸ e ▸ hi)
    · rcases List.mem_append.mp hj with hj | hj
      · exact h.opened_lt j hj
      · exact List.mem_singleton.mp hj ▸ hx.2
    · rw [List.filter_append, List.length_append, ← h.count_eq]
      simp [hx.1]
  refine opened'.insert (b := a) (x := (k, true)) ?_ (fun c e => ?_) nowhere (by simp) hx.1 hx.2
  · simpa [mid] using ha'
  · rw [ho c e, mid_o c e]

/-- A counted job that is held is among those `count` counts. -/
theorem count_pos {k : ℕ} (h : Ledger held opened closed count next) (hk : (k, true) ∈ held a) :
    0 < count := by
  rw [h.count_eq]
  refine List.length_pos_of_mem (List.mem_filter.mpr ⟨(h.counted a _ hk).mpr rfl, ?_⟩)
  simpa using (h.alive_of_mem hk).1

/-- A job leaves its place for good. -/
theorem close (h : Ledger held opened closed count next) (ha : (held a).Perm (x :: held' a))
    (ho : ∀ c, c ≠ a → held' c = held c) :
    Ledger held' opened (closed ++ [x.1]) (if x.2 then count - 1 else count) next := by
  have hm := h.drop ha ho
  have gone := h.not_held_drop ha ho
  have hx := mem_of_perm ha
  refine ⟨hm.nodup, hm.unique, hm.counted, fun c k hk => ⟨?_, (hm.alive c k hk).2⟩, hm.opened_nodup,
    hm.opened_lt, fun k hk => ?_, ?_⟩
  · rw [List.mem_append, not_or]
    exact ⟨(hm.alive c k hk).1, fun e => gone c (List.mem_singleton.mp e ▸ hk)⟩
  · rcases List.mem_append.mp hk with hk | hk
    · exact h.closed_lt k hk
    · exact List.mem_singleton.mp hk ▸ (h.alive_of_mem hx).2
  · -- closing `x` takes its number, if it was opened, off the list of the open ones
    have step : opened.filter (· ∉ closed ++ [x.1]) =
        (opened.filter (· ∉ closed)).filter (· ≠ x.1) := by
      rw [List.filter_filter]
      exact List.filter_congr fun k _ => by simp [and_comm]
    have nodup : (opened.filter (· ∉ closed)).Nodup := h.opened_nodup.filter _
    have erase : (opened.filter (· ∉ closed)).filter (· ≠ x.1) =
        (opened.filter (· ∉ closed)).erase x.1 := by
      rw [nodup.erase_eq_filter]
      exact List.filter_congr fun k _ => by rw [bne, beq_eq_decide, decide_not]
    rw [step, erase, List.length_erase, ← h.count_eq]
    have mem : x.1 ∈ opened.filter (· ∉ closed) ↔ x.2 = true := by
      rw [List.mem_filter, ← h.counted a x hx]
      simp [(h.alive_of_mem hx).1]
    by_cases e : x.2 = true
    · rw [if_pos e, if_pos (mem.mpr e)]
    · rw [if_neg e, if_neg (mt mem.mp e)]

/-- When the count is zero, everything opened has been closed. -/
theorem closed_of_count_zero (h : Ledger held opened closed count next) (h₀ : count = 0) :
    ∀ k ∈ opened, k ∈ closed := by
  intro k hk
  by_contra hc
  have : k ∈ opened.filter (· ∉ closed) := List.mem_filter.mpr ⟨hk, by simpa using hc⟩
  rw [List.length_eq_zero_iff.mp (h.count_eq.symm.trans h₀)] at this
  cases this

/-! ### Steps -/

/-- What a step can do to the jobs.  `L` says that it may give a counted job up. -/
inductive Step (L : Prop) (held held' : ℓ → List (ℕ × Bool)) (opened closed : List ℕ)
    (count next : ℕ) : List ℕ → List ℕ → ℕ → ℕ → Prop where
  | keep (hp : ∀ a, (held' a).Perm (held a)) :
      Step L held held' opened closed count next opened closed count next
  | move {a b : ℓ} {x : ℕ × Bool} (hab : a ≠ b) (ha : (held a).Perm (x :: held' a))
      (hb : (held' b).Perm (x :: held b)) (ho : ∀ c, c ≠ a → c ≠ b → held' c = held c) :
      Step L held held' opened closed count next opened closed count next
  | drop {a : ℓ} {x : ℕ × Bool} (hx : x.2 = true → L) (ha : (held a).Perm (x :: held' a))
      (ho : ∀ c, c ≠ a → held' c = held c) :
      Step L held held' opened closed count next opened closed count next
  | issue {b : ℓ} (hb : (held' b).Perm ((next, false) :: held b))
      (ho : ∀ c, c ≠ b → held' c = held c) :
      Step L held held' opened closed count next opened closed count (next + 1)
  | open {a : ℓ} {k : ℕ} {l : List (ℕ × Bool)} (ha : (held a).Perm ((k, false) :: l))
      (ha' : (held' a).Perm ((k, true) :: l)) (ho : ∀ c, c ≠ a → held' c = held c) :
      Step L held held' opened closed count next (opened ++ [k]) closed (count + 1) next
  | close {a : ℓ} {x : ℕ × Bool} (ha : (held a).Perm (x :: held' a))
      (ho : ∀ c, c ≠ a → held' c = held c) :
      Step L held held' opened closed count next opened (closed ++ [x.1])
        (if x.2 then count - 1 else count) next

variable {L : Prop} {opened' closed' : List ℕ} {count' next' : ℕ}

theorem step [DecidableEq ℓ] (h : Ledger held opened closed count next)
    (hs : Step L held held' opened closed count next opened' closed' count' next') :
    Ledger held' opened' closed' count' next' := by
  cases hs with
  | keep hp => exact h.perm hp
  | move hab ha hb ho => exact h.move hab ha hb ho
  | drop _ ha ho => exact h.drop ha ho
  | issue hb ho => exact h.issue hb ho
  | «open» ha ha' ho => exact h.open ha ha' ho
  | close ha ho => exact h.close ha ho

/-- Every job that was opened and not closed is held somewhere. -/
def Whole (held : ℓ → List (ℕ × Bool)) (opened closed : List ℕ) : Prop :=
  ∀ k ∈ opened, k ∉ closed → ∃ a, (k, true) ∈ held a

theorem Whole.step (hw : Whole held opened closed)
    (hs : Step False held held' opened closed count next opened' closed' count' next') :
    Whole held' opened' closed' := by
  intro k hk hc
  -- a job at a place that the step does not take it from stays there
  have stay : ∀ {a x}, (held a).Perm (x :: held' a) → ∀ {b}, (b ≠ a → held b ⊆ held' b) →
      (k, true) ≠ x → (k, true) ∈ held b → ∃ c, (k, true) ∈ held' c := by
    intro a x ha b ho hx hb
    by_cases e : b = a
    · subst e
      exact ⟨b, (List.mem_cons.mp (ha.mem_iff.mp hb)).resolve_left hx⟩
    · exact ⟨b, ho e hb⟩
  cases hs with
  | keep hp =>
      obtain ⟨b, hb⟩ := hw k hk hc
      exact ⟨b, (hp b).mem_iff.mpr hb⟩
  | @move a c x hab ha hm ho =>
      obtain ⟨b, hb⟩ := hw k hk hc
      by_cases hx : (k, true) = x
      · exact ⟨c, hm.mem_iff.mpr (hx ▸ .head _)⟩
      · refine stay ha (fun e => ?_) hx hb
        by_cases e' : b = c
        · subst e'; exact fun y hy => hm.mem_iff.mpr (.tail _ hy)
        · rw [ho b e e']; exact fun _ => id
  | @drop a x hx ha ho =>
      obtain ⟨b, hb⟩ := hw k hk hc
      refine stay ha (fun e => ?_) (fun e => hx (e ▸ rfl)) hb
      rw [ho b e]; exact fun _ => id
  | @issue c hm ho =>
      obtain ⟨b, hb⟩ := hw k hk hc
      by_cases e : b = c
      · subst e; exact ⟨b, hm.mem_iff.mpr (.tail _ hb)⟩
      · exact ⟨b, by rwa [ho b e]⟩
  | @«open» a j l ha ha' ho =>
      rcases List.mem_append.mp hk with hk | hk
      · obtain ⟨b, hb⟩ := hw k hk hc
        by_cases e : b = a
        · subst e
          rcases List.mem_cons.mp (ha.mem_iff.mp hb) with e | hl
          · cases e
          · exact ⟨b, ha'.mem_iff.mpr (.tail _ hl)⟩
        · exact ⟨b, by rwa [ho b e]⟩
      · rw [List.mem_singleton.mp hk]
        exact ⟨a, ha'.mem_iff.mpr (.head _)⟩
  | @close a x ha ho =>
      rw [List.mem_append, List.mem_singleton, not_or] at hc
      obtain ⟨b, hb⟩ := hw k hk hc.1
      refine stay ha (fun e => ?_) (fun e => hc.2 (e ▸ rfl)) hb
      rw [ho b e]; exact fun _ => id

/-- A job that was opened and is neither closed nor held is lost. -/
def Lost (held : ℓ → List (ℕ × Bool)) (opened closed : List ℕ) (k : ℕ) : Prop :=
  k ∈ opened ∧ k ∉ closed ∧ ∀ a, k ∉ jobNums (held a)

/-- Only the next number is new at a place. -/
theorem Step.held_of_held
    (hs : Step L held held' opened closed count next opened' closed' count' next') {b : ℓ} {k : ℕ}
    (hk : k ∈ jobNums (held' b)) : (∃ a, k ∈ jobNums (held a)) ∨ k = next := by
  obtain ⟨y, hy, rfl⟩ := List.mem_map.mp hk
  have mem : ∀ {a z}, z ∈ held a → z.1 = y.1 → (∃ a, y.1 ∈ jobNums (held a)) ∨ y.1 = next :=
    fun {a z} hz e => .inl ⟨a, e ▸ List.mem_map.mpr ⟨z, hz, rfl⟩⟩
  cases hs with
  | keep hp => exact mem ((hp b).mem_iff.mp hy) rfl
  | @move a c x hab ha hm ho =>
      by_cases e₁ : b = a
      · subst e₁; exact mem (ha.mem_iff.mpr (.tail _ hy)) rfl
      · by_cases e₂ : b = c
        · subst e₂
          rcases List.mem_cons.mp (hm.mem_iff.mp hy) with rfl | hy
          · exact mem (mem_of_perm ha) rfl
          · exact mem hy rfl
        · rw [ho b e₁ e₂] at hy; exact mem hy rfl
  | @issue c hm ho =>
      by_cases e : b = c
      · subst e
        rcases List.mem_cons.mp (hm.mem_iff.mp hy) with rfl | hy
        · exact .inr rfl
        · exact mem hy rfl
      · rw [ho b e] at hy; exact mem hy rfl
  | @«open» a j l ha ha' ho =>
      by_cases e : b = a
      · subst e
        rcases List.mem_cons.mp (ha'.mem_iff.mp hy) with rfl | hy
        · exact mem (mem_of_perm ha) rfl
        · exact mem (ha.mem_iff.mpr (.tail _ hy)) rfl
      · rw [ho b e] at hy; exact mem hy rfl
  | @drop a x _ ha ho | @close a x ha ho =>
      by_cases e : b = a
      · subst e; exact mem (ha.mem_iff.mpr (.tail _ hy)) rfl
      · rw [ho b e] at hy; exact mem hy rfl

/-- What is lost stays lost: only the next number is new at a place, and what is closed was held. -/
theorem Lost.step {k : ℕ} (hk : Lost held opened closed k)
    (h : Ledger held opened closed count next)
    (hs : Step L held held' opened closed count next opened' closed' count' next') :
    Lost held' opened' closed' k := by
  obtain ⟨ho, hc, hn⟩ := hk
  have nowhere : ∀ a, k ∉ jobNums (held' a) := fun a ha =>
    (hs.held_of_held ha).elim (fun ⟨b, hb⟩ => hn b hb) (Nat.ne_of_lt (h.opened_lt k ho))
  cases hs with
  | keep | move | drop | issue => exact ⟨ho, hc, nowhere⟩
  | «open» => exact ⟨List.mem_append_left _ ho, hc, nowhere⟩
  | @close a x ha _ =>
      refine ⟨ho, fun hk => ?_, nowhere⟩
      rcases List.mem_append.mp hk with hk | hk
      · exact hc hk
      · rw [List.mem_singleton.mp hk] at hn
        exact hn a (List.mem_map.mpr ⟨x, mem_of_perm ha, rfl⟩)

/-- A counted job that is given up is lost. -/
theorem lost_drop (h : Ledger held opened closed count next) (hx : x.2 = true)
    (ha : (held a).Perm (x :: held' a)) (ho : ∀ c, c ≠ a → held' c = held c) :
    Lost held' opened closed x.1 :=
  ⟨(h.counted a x (mem_of_perm ha)).mpr hx, (h.alive_of_mem (mem_of_perm ha)).1,
    h.not_held_drop ha ho⟩

/-- In a whole ledger the jobs that `count` counts are those that are held. -/
theorem mem_open_iff (h : Ledger held opened closed count next) (hw : Whole held opened closed)
    {k : ℕ} : k ∈ opened.filter (· ∉ closed) ↔ ∃ a, (k, true) ∈ held a := by
  rw [List.mem_filter]
  constructor
  · rintro ⟨hk, hc⟩
    exact hw k hk (by simpa using hc)
  · rintro ⟨a, ha⟩
    exact ⟨(h.counted a _ ha).mpr rfl, by simpa using (h.alive_of_mem ha).1⟩

end Ledger

end Support
