import Mathlib.Data.Nat.Find
import Mathlib.Logic.Function.Basic
import Std.Data.TreeMap
import RustBase.Async.Source

/-!
# Async — wait sets

`Waiters` of `sync.rs`: the wakers of the futures that cannot proceed, under ids that each future
takes once and keeps.  An id outlives its entry: waking takes the entry and leaves the id, and the
next poll of the future parks under the same id again.

`Parks x ids awaiting` says how a wait set goes together with the futures that use it.  `ids f` is
the id of the future `f`, if it has one, and `awaiting f` is the waker of its last poll, if that
poll was pending and the waker has not been invoked since.  Then ids are never shared, every entry
is of some future, and whoever awaits is parked.  So waking everybody invokes every waker awaited
(`Parks.mem_wakeAll`).

The id counter is a `usize`; no run takes 2^64 ids, so it is a number here.
-/

namespace RustAsync
open Support

/-- A future, by its address. -/
abbrev FutId := ℕ

/-- A guard, by its address. -/
abbrev GuardId := ℕ

/-- `std::task::Poll`. -/
inductive Poll (α : Type*) where
  | ready (value : α)
  | pending
  deriving DecidableEq

structure Waiters where
  next : ℕ
  map : Std.TreeMap ℕ WakerId

namespace Waiters

variable {x : Waiters} {id : Option ℕ} {w : WakerId}

/-- `Waiters::default()`. -/
def new : Waiters := ⟨0, ∅⟩

/-- Park the waker under the future's id; the id is the result. -/
def park (x : Waiters) (id : Option ℕ) (w : WakerId) : ℕ × Waiters :=
  match id with
  | some k => (k, { x with map := x.map.insert k w })
  | none => (x.next, ⟨x.next + 1, x.map.insert x.next w⟩)

def unpark (x : Waiters) (id : Option ℕ) : Waiters :=
  match id with
  | some k => { x with map := x.map.erase k }
  | none => x

/-- The wakers invoked, in their order, and the set that is left. -/
def wakeAll (x : Waiters) : List WakerId × Waiters :=
  (x.map.toList.map Prod.snd, { x with map := ∅ })

def wakeOne (x : Waiters) : List WakerId × Waiters :=
  match x.map.keys.head? with
  | some k =>
      match x.map[k]? with
      | some w => ([w], { x with map := x.map.erase k })
      | none => ([], x)
  | none => ([], x)

/-- No waker is parked. -/
def IsEmpty (x : Waiters) : Prop := ∀ k : ℕ, x.map[k]? = none

/-! ### The entries -/

theorem isEmpty_new : IsEmpty new := fun _ => Std.TreeMap.getElem?_emptyc

theorem isEmpty_wakeAll : IsEmpty x.wakeAll.2 := fun _ => Std.TreeMap.getElem?_emptyc

theorem getElem?_park (j : ℕ) : (x.park id w).2.map[j]? =
    if (x.park id w).1 = j then some w else x.map[j]? := by
  cases id with
  | none => by_cases e : x.next = j <;> simp [park, Std.TreeMap.getElem?_insert, e]
  | some k => by_cases e : k = j <;> simp [park, Std.TreeMap.getElem?_insert, e]

theorem getElem?_unpark (j : ℕ) : (x.unpark id).map[j]? =
    if id = some j then none else x.map[j]? := by
  cases id with
  | none => simp [unpark]
  | some k => simp [unpark, Std.TreeMap.getElem?_erase]

@[simp] theorem next_unpark : (x.unpark id).next = x.next := by
  cases id <;> rfl

theorem IsEmpty.unpark (h : IsEmpty x) : IsEmpty (x.unpark id) := by
  intro j
  rw [getElem?_unpark, h j]
  split <;> rfl

theorem mem_wakeAll_iff : w ∈ x.wakeAll.1 ↔ ∃ k : ℕ, x.map[k]? = some w := by
  constructor
  · intro h
    obtain ⟨⟨k, w'⟩, hk, rfl⟩ := List.mem_map.mp h
    exact ⟨k, Std.TreeMap.mem_toList_iff_getElem?_eq_some.mp hk⟩
  · rintro ⟨k, h⟩
    exact List.mem_map.mpr ⟨(k, w), Std.TreeMap.mem_toList_iff_getElem?_eq_some.mpr h, rfl⟩

theorem wakeOne_of_isEmpty (h : IsEmpty x) : x.wakeOne = ([], x) := by
  have none : x.map.keys.head? = none := by
    rw [← Std.TreeMap.minKey?_eq_head?_keys, Std.TreeMap.minKey?_eq_none_iff,
      Std.TreeMap.isEmpty_iff_forall_not_mem]
    intro k hk
    rw [Std.TreeMap.mem_iff_isSome_getElem?, h k] at hk
    cases hk
  rw [wakeOne, none]

theorem head?_of_least {k : ℕ} (h : x.map[k]? = some w) (hk : ∀ j, x.map[j]? ≠ none → k ≤ j) :
    x.map.keys.head? = some k := by
  rw [← Std.TreeMap.minKey?_eq_head?_keys, Std.TreeMap.minKey?_eq_some_iff_mem_and_forall]
  refine ⟨?_, fun j hj => ?_⟩
  · rw [Std.TreeMap.mem_iff_isSome_getElem?, h]; rfl
  · rw [Std.TreeMap.mem_iff_isSome_getElem?] at hj
    exact Nat.isLE_compare.mpr (hk j (Option.isSome_iff_ne_none.mp hj))

/-- `wake_one` takes the entry with the smallest id. -/
theorem wakeOne_of_least {k : ℕ} (h : x.map[k]? = some w) (hk : ∀ j, x.map[j]? ≠ none → k ≤ j) :
    x.wakeOne = ([w], { x with map := x.map.erase k }) := by
  rw [wakeOne, head?_of_least h hk]
  simp only [h]

/-- A set that is not empty has an entry with the smallest id. -/
theorem exists_least (h : ¬ IsEmpty x) :
    ∃ (k : ℕ) (w : WakerId), x.map[k]? = some w ∧ ∀ j, x.map[j]? ≠ none → k ≤ j := by
  have some_entry : ∃ k : ℕ, x.map[k]? ≠ none := by
    by_contra hn
    push Not at hn
    exact h hn
  obtain ⟨w, hw⟩ := Option.ne_none_iff_exists'.mp (Nat.find_spec some_entry)
  exact ⟨Nat.find some_entry, w, hw, fun j hj => Nat.find_min' some_entry hj⟩

/-- What `wake_one` does: nothing to an empty set, else it takes the entry with the smallest id. -/
theorem wakeOne_cases (x : Waiters) :
    (IsEmpty x ∧ x.wakeOne = ([], x)) ∨
    ∃ (k : ℕ) (w : WakerId), x.map[k]? = some w ∧ (∀ j, x.map[j]? ≠ none → k ≤ j) ∧
      x.wakeOne = ([w], x.unpark (some k)) := by
  by_cases h : IsEmpty x
  · exact .inl ⟨h, wakeOne_of_isEmpty h⟩
  · obtain ⟨k, w, hw, hk⟩ := exists_least h
    exact .inr ⟨k, w, hw, hk, wakeOne_of_least hw hk⟩

end Waiters

/-! ### The futures of a wait set -/

/-- The wakers still awaited after some have been invoked. -/
def stillAwaiting {ι : Type*} (awaiting : ι → Option WakerId) (woken : List WakerId) :
    ι → Option WakerId :=
  fun f => (awaiting f).filter (· ∉ woken)

theorem stillAwaiting_eq_some {ι : Type*} {awaiting : ι → Option WakerId} {woken : List WakerId}
    {f : ι} {w : WakerId} :
    stillAwaiting awaiting woken f = some w ↔ awaiting f = some w ∧ w ∉ woken := by
  simp [stillAwaiting, Option.filter_eq_some_iff]

/-- The ids of the futures and the wakers they await, with the wait set. -/
structure Waiters.Parks {ι : Type*} (x : Waiters) (ids : ι → Option ℕ)
    (awaiting : ι → Option WakerId) : Prop where
  fresh : ∀ f k, ids f = some k → k < x.next
  apart : ∀ f g k, ids f = some k → ids g = some k → f = g
  owned : ∀ (k : ℕ) w, x.map[k]? = some w → ∃ f, ids f = some k
  parked : ∀ f w, awaiting f = some w → ∃ k : ℕ, ids f = some k ∧ x.map[k]? = some w

namespace Waiters.Parks

variable {ι : Type*} [DecidableEq ι] {x : Waiters} {ids : ι → Option ℕ}
  {awaiting : ι → Option WakerId}

omit [DecidableEq ι] in
theorem new : Parks .new (fun _ : ι => none) (fun _ => none) where
  fresh _ _ h := by cases h
  apart _ _ _ h := by cases h
  owned k w h := by rw [isEmpty_new k] at h; cases h
  parked _ _ h := by cases h

omit [DecidableEq ι] in
/-- Every entry is of exactly one future. -/
theorem existsUnique (h : Parks x ids awaiting) {k : ℕ} {w : WakerId} (hk : x.map[k]? = some w) :
    ∃! f, ids f = some k := by
  obtain ⟨f, hf⟩ := h.owned k w hk
  exact ⟨f, hf, fun g hg => h.apart g f k hg hf⟩

omit [DecidableEq ι] in
/-- Nobody awaits an empty set. -/
theorem not_awaiting (h : Parks x ids awaiting) (he : IsEmpty x) (f : ι) : awaiting f = none := by
  by_contra hne
  obtain ⟨w, hw⟩ := Option.ne_none_iff_exists'.mp hne
  obtain ⟨k, -, hk⟩ := h.parked f w hw
  rw [he k] at hk
  cases hk

omit [DecidableEq ι] in
/-- Waking everybody invokes every waker awaited. -/
theorem mem_wakeAll (h : Parks x ids awaiting) {f : ι} {w : WakerId} (hf : awaiting f = some w) :
    w ∈ x.wakeAll.1 := by
  obtain ⟨k, -, hk⟩ := h.parked f w hf
  exact mem_wakeAll_iff.mpr ⟨k, hk⟩

omit [DecidableEq ι] in
/-- The id a future parks under is its own or a new one. -/
theorem park_cases (x : Waiters) (ids : ι → Option ℕ) (f : ι) (w : WakerId) :
    (ids f = some (x.park (ids f) w).1 ∧ (x.park (ids f) w).2.next = x.next) ∨
    (ids f = none ∧ (x.park (ids f) w).1 = x.next ∧
      (x.park (ids f) w).2.next = x.next + 1) := by
  cases ids f with
  | none => exact .inr ⟨rfl, rfl, rfl⟩
  | some k => exact .inl ⟨rfl, rfl⟩

omit [DecidableEq ι] in
/-- It is below the counter afterwards, and no other future has it. -/
theorem park_id (h : Parks x ids awaiting) (f : ι) (w : WakerId) :
    (x.park (ids f) w).1 < (x.park (ids f) w).2.next ∧ x.next ≤ (x.park (ids f) w).2.next ∧
    ∀ g, g ≠ f → ids g ≠ some (x.park (ids f) w).1 := by
  rcases park_cases x ids f w with ⟨hf, hn⟩ | ⟨-, hk, hn⟩
  · refine ⟨hn ▸ h.fresh f _ hf, Nat.le_of_eq hn.symm, fun g hg hgk => ?_⟩
    exact hg (h.apart g f _ hgk hf)
  · refine ⟨by omega, by omega, fun g hg hgk => ?_⟩
    rw [hk] at hgk
    exact Nat.lt_irrefl _ (h.fresh g _ hgk)

/-- `f` parks, or replaces the waker of its entry. -/
theorem park (h : Parks x ids awaiting) (f : ι) (w : WakerId) :
    Parks (x.park (ids f) w).2 (Function.update ids f (some (x.park (ids f) w).1))
      (Function.update awaiting f (some w)) := by
  obtain ⟨lt, le, other⟩ := h.park_id f w
  refine ⟨fun g j hj => ?_, fun g g' j hg hg' => ?_, fun j v hj => ?_, fun g v hv => ?_⟩
  · rcases update_some_eq_some.mp hj with ⟨-, rfl⟩ | ⟨-, hj⟩
    · exact lt
    · exact Nat.lt_of_lt_of_le (h.fresh g j hj) le
  · rcases update_some_eq_some.mp hg with ⟨rfl, rfl⟩ | ⟨e, hgj⟩
    · rcases update_some_eq_some.mp hg' with ⟨rfl, -⟩ | ⟨e', hgj'⟩
      · rfl
      · exact absurd hgj' (other g' e')
    · rcases update_some_eq_some.mp hg' with ⟨rfl, rfl⟩ | ⟨-, hgj'⟩
      · exact absurd hgj (other g e)
      · exact h.apart g g' j hgj hgj'
  · rw [getElem?_park] at hj
    split at hj
    · rename_i hkj
      exact ⟨f, by rw [Function.update_self, ← hkj]⟩
    · rename_i hkj
      obtain ⟨g, hg⟩ := h.owned j v hj
      have e : g ≠ f := by
        -- the entry of `f` is the one replaced
        rintro rfl
        rcases park_cases x ids g w with ⟨hf, -⟩ | ⟨hf, -⟩
        · exact hkj (Option.some.inj (hf.symm.trans hg))
        · rw [hf] at hg; cases hg
      exact ⟨g, by rw [Function.update_of_ne e, hg]⟩
  · rcases update_some_eq_some.mp hv with ⟨rfl, rfl⟩ | ⟨e, hv⟩
    · exact ⟨_, Function.update_self .., by rw [getElem?_park, if_pos rfl]⟩
    · obtain ⟨j, hj, hm⟩ := h.parked g v hv
      have hne : (x.park (ids f) w).1 ≠ j := fun e' => other g e (e' ▸ hj)
      exact ⟨j, by rw [Function.update_of_ne e, hj], by rw [getElem?_park, if_neg hne, hm]⟩

/-- `f` leaves: it gives up its id and its entry. -/
theorem unpark (h : Parks x ids awaiting) (f : ι) :
    Parks (x.unpark (ids f)) (Function.update ids f none) (Function.update awaiting f none) := by
  refine ⟨fun g j hj => ?_, fun g g' j hg hg' => ?_, fun j v hj => ?_, fun g v hv => ?_⟩
  · rw [next_unpark]; exact h.fresh g j (update_none_eq_some.mp hj).2
  · exact h.apart g g' j (update_none_eq_some.mp hg).2 (update_none_eq_some.mp hg').2
  · rw [getElem?_unpark] at hj
    split at hj
    · cases hj
    · rename_i hne
      obtain ⟨g, hg⟩ := h.owned j v hj
      have e : g ≠ f := fun e => hne (e ▸ hg)
      exact ⟨g, by rw [Function.update_of_ne e, hg]⟩
  · obtain ⟨e, hv⟩ := update_none_eq_some.mp hv
    obtain ⟨j, hj, hm⟩ := h.parked g v hv
    have hne : ids f ≠ some j := fun hf => e (h.apart g f j hj hf)
    exact ⟨j, by rw [Function.update_of_ne e, hj], by rw [getElem?_unpark, if_neg hne, hm]⟩

/-- `f` goes away when it has no entry. -/
theorem forget (h : Parks x ids awaiting) {f : ι} (hf : ∀ k, ids f = some k → x.map[k]? = none) :
    Parks x (Function.update ids f none) (Function.update awaiting f none) := by
  refine ⟨fun g j hj => ?_, fun g g' j hg hg' => ?_, fun j v hj => ?_, fun g v hv => ?_⟩
  · exact h.fresh g j (update_none_eq_some.mp hj).2
  · exact h.apart g g' j (update_none_eq_some.mp hg).2 (update_none_eq_some.mp hg').2
  · obtain ⟨g, hg⟩ := h.owned j v hj
    have e : g ≠ f := by
      rintro rfl
      rw [hf j hg] at hj
      cases hj
    exact ⟨g, by rw [Function.update_of_ne e, hg]⟩
  · obtain ⟨e, hv⟩ := update_none_eq_some.mp hv
    obtain ⟨j, hj, hm⟩ := h.parked g v hv
    exact ⟨j, by rw [Function.update_of_ne e, hj], hm⟩

omit [DecidableEq ι] in
/-- Wakers are invoked that need not be of this set. -/
theorem woken (h : Parks x ids awaiting) (ws : List WakerId) :
    Parks x ids (stillAwaiting awaiting ws) :=
  ⟨h.fresh, h.apart, h.owned, fun g v hv => h.parked g v (stillAwaiting_eq_some.mp hv).1⟩

omit [DecidableEq ι] in
/-- Everybody is woken, and maybe others; the ids stay. -/
theorem wakeAll (h : Parks x ids awaiting) {ws : List WakerId} (hws : x.wakeAll.1 ⊆ ws) :
    Parks x.wakeAll.2 ids (stillAwaiting awaiting ws) := by
  refine ⟨h.fresh, h.apart, fun j v hj => ?_, fun g v hv => ?_⟩
  · rw [isEmpty_wakeAll j] at hj; cases hj
  · obtain ⟨hv, hn⟩ := stillAwaiting_eq_some.mp hv
    exact absurd (hws (h.mem_wakeAll hv)) hn

omit [DecidableEq ι] in
/-- One waker is invoked; the ids stay. -/
theorem wakeOne (h : Parks x ids awaiting) :
    Parks x.wakeOne.2 ids (stillAwaiting awaiting x.wakeOne.1) := by
  rcases wakeOne_cases x with ⟨-, he⟩ | ⟨k, w, hw, -, he⟩
  · rw [he]; exact h.woken []
  · rw [he]
    refine ⟨fun g j hj => ?_, h.apart, fun j v hj => ?_, fun g v hv => ?_⟩
    · rw [next_unpark]; exact h.fresh g j hj
    · rw [getElem?_unpark] at hj
      split at hj
      · cases hj
      · exact h.owned j v hj
    · obtain ⟨hv, hn⟩ := stillAwaiting_eq_some.mp hv
      obtain ⟨j, hj, hm⟩ := h.parked g v hv
      have hne : some k ≠ some j := by
        rintro e
        cases e
        rw [hw] at hm
        exact hn (List.mem_singleton.mpr (Option.some.inj hm).symm)
      exact ⟨j, hj, by rw [getElem?_unpark, if_neg hne, hm]⟩

end Waiters.Parks

/-- The futures of one kind that use a wait set. -/
structure Futures where
  /-- the live futures, with the ids they have -/
  ids : FutId → Option (Option ℕ)
  /-- the waker of a future's last poll, if that was pending and the waker was not invoked since -/
  awaiting : FutId → Option WakerId

namespace Futures

def new : Futures := ⟨fun _ => none, fun _ => none⟩

/-- The id of a future; one that is not parked may have none. -/
def id (F : Futures) (f : FutId) : Option ℕ := (F.ids f).join

def create (F : Futures) (f : FutId) : Futures :=
  { F with ids := Function.update F.ids f (some none) }

/-- A poll leaves the future with `id`; it was pending when it left a waker. -/
def polled (F : Futures) (f : FutId) (id : Option ℕ) (w : Option WakerId) : Futures :=
  ⟨Function.update F.ids f (some id), Function.update F.awaiting f w⟩

def drop (F : Futures) (f : FutId) : Futures :=
  ⟨Function.update F.ids f none, Function.update F.awaiting f none⟩

/-- Some wakers are invoked. -/
def woken (F : Futures) (ws : List WakerId) : Futures :=
  { F with awaiting := stillAwaiting F.awaiting ws }

/-- The futures go together with the wait set. -/
def Fits (F : Futures) (x : Waiters) : Prop := x.Parks F.id F.awaiting

variable {F : Futures} {x : Waiters} {f : FutId}

/-- A future that has just been made has no id. -/
theorem id_create (hf : F.ids f = none) : (F.create f).id = F.id := by
  funext g
  by_cases e : g = f
  · subst e; simp [id, create, hf]
  · simp [id, create, e]

theorem id_polled {id : Option ℕ} {w : Option WakerId} :
    (F.polled f id w).id = Function.update F.id f id := by
  funext g
  by_cases e : g = f
  · subst e; simp [Futures.id, polled]
  · simp [Futures.id, polled, e]

theorem id_drop : (F.drop f).id = Function.update F.id f none := by
  funext g
  by_cases e : g = f
  · subst e; simp [id, drop]
  · simp [id, drop, e]

namespace Fits

theorem new : Fits .new .new := Waiters.Parks.new

theorem create (h : Fits F x) (hf : F.ids f = none) : Fits (F.create f) x := by
  rw [Fits, id_create hf]; exact h

/-- The poll was pending: the future is parked. -/
theorem pending (h : Fits F x) (f : FutId) (w : WakerId) :
    Fits (F.polled f (some (x.park (F.id f) w).1) (some w)) (x.park (F.id f) w).2 := by
  rw [Fits, id_polled]; exact h.park f w

/-- The poll was ready: the future has no id any more. -/
theorem ready (h : Fits F x) (f : FutId) : Fits (F.polled f none none) (x.unpark (F.id f)) := by
  rw [Fits, id_polled]; exact h.unpark f

theorem drop (h : Fits F x) (f : FutId) : Fits (F.drop f) (x.unpark (F.id f)) := by
  rw [Fits, id_drop]; exact h.unpark f

theorem woken (h : Fits F x) (ws : List WakerId) : Fits (F.woken ws) x := Waiters.Parks.woken h ws

theorem wakeAll (h : Fits F x) {ws : List WakerId} (hws : x.wakeAll.1 ⊆ ws) :
    Fits (F.woken ws) x.wakeAll.2 :=
  Waiters.Parks.wakeAll h hws

/-- Every entry is of exactly one live future. -/
theorem existsUnique (h : Fits F x) {k : ℕ} {w : WakerId} (hk : x.map[k]? = some w) :
    ∃! f, F.ids f = some (some k) := by
  simpa [id, Option.join_eq_some_iff] using Waiters.Parks.existsUnique h hk

/-- Nobody awaits an empty set. -/
theorem awaiting_of_isEmpty (h : Fits F x) (he : x.IsEmpty) (f : FutId) : F.awaiting f = none :=
  Waiters.Parks.not_awaiting h he f

/-- Waking everybody invokes every waker awaited. -/
theorem mem_wakeAll (h : Fits F x) {w : WakerId} (hf : F.awaiting f = some w) :
    w ∈ x.wakeAll.1 :=
  Waiters.Parks.mem_wakeAll h hf

/-- So somebody awaits only while a waker is parked. -/
theorem not_isEmpty (h : Fits F x) {w : WakerId} (hf : F.awaiting f = some w) : ¬ x.IsEmpty := by
  intro he
  rw [h.awaiting_of_isEmpty he f] at hf
  cases hf

end Fits

end Futures

end RustAsync
