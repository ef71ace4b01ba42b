import Mathlib.Data.List.ReduceOption
import RustBase.Async.Waiters

/-!
# Async — stream combinators

`Map`, `Filter` and `Take` over a stream, driven by `Fold`, `ForEach` or `Collect`.

* A `PollStream` is `poll_next` on a type of states.  It is finite: there is a bound on how often
  it can be polled before it ends, which every poll before the end lowers.  So the loops of the
  adapters and of the drivers terminate.
* The innermost stream is a script of items and `Pending`s (`script`).
* Closures are functions, and what they have been called with is kept beside them.

A composition of adapters is a `Pipe`, which is a stream (`Pipe.stream`) and a function on lists
(`Pipe.onList`).

* `pollNext_kept`: a poll of a composition keeps its account (`Kept`): each closure has been called
  with what the stream before it has returned.
* `drive_kept`: a poll of a driver pulls items up to the next `Pending`, or to the end.
* `combinators_eq_lists`: the drivers come to an end, with the result of the list function.
-/

namespace RustAsync

/-- A stream with finitely many items, and finitely many `Pending`s between them. -/
structure PollStream (σ α : Type) where
  pollNext : σ → Poll (Option α) × σ
  /-- how often the stream can be polled before its end -/
  size : σ → ℕ
  shrinks : ∀ s, (pollNext s).1 ≠ .ready none → size (pollNext s).2 < size s

namespace PollStream

variable {σ α β : Type}

theorem size_lt (S : PollStream σ α) {s t : σ} {r : Poll (Option α)}
    (he : S.pollNext s = (r, t)) (hr : r ≠ .ready none) : S.size t < S.size s := by
  have hS := S.shrinks s
  rw [he] at hS
  exact hS hr

/-- Induction over the polls of a stream. -/
theorem induct (S : PollStream σ α) {motive : σ → Prop}
    (done : ∀ s t, S.pollNext s = (.ready none, t) → motive s)
    (pending : ∀ s t, S.pollNext s = (.pending, t) → motive t → motive s)
    (item : ∀ s a t, S.pollNext s = (.ready (some a), t) → motive t → motive s) :
    ∀ s, motive s := by
  intro s
  match he : S.pollNext s with
  | (.ready none, t) => exact done s t he
  | (.pending, t) =>
      have := S.size_lt he nofun
      exact pending s t he (induct S done pending item t)
  | (.ready (some a), t) =>
      have := S.size_lt he nofun
      exact item s a t he (induct S done pending item t)
termination_by s => S.size s

/-- The items that are still to come. -/
def items (S : PollStream σ α) (s : σ) : List α :=
  match _he : S.pollNext s with
  | (.ready (some item), t) => item :: items S t
  | (.ready none, _) => []
  | (.pending, t) => items S t
termination_by S.size s
decreasing_by all_goals exact S.size_lt _he nofun

section Items

variable {S : PollStream σ α} {s t : σ}

theorem items_item {item : α} (he : S.pollNext s = (.ready (some item), t)) :
    S.items s = item :: S.items t := by
  rw [items]
  split <;> simp_all

theorem items_done (he : S.pollNext s = (.ready none, t)) : S.items s = [] := by
  rw [items]
  split <;> simp_all

theorem items_pending (he : S.pollNext s = (.pending, t)) : S.items s = S.items t := by
  rw [items]
  split <;> simp_all

/-- Two states whose next poll is the same. -/
theorem items_congr (he : S.pollNext s = S.pollNext t) : S.items s = S.items t := by
  match hr : S.pollNext t with
  | (.ready none, u) => rw [items_done hr, items_done (he.trans hr)]
  | (.pending, u) => rw [items_pending hr, items_pending (he.trans hr)]
  | (.ready (some item), u) => rw [items_item hr, items_item (he.trans hr)]

end Items

structure ScriptState (α : Type) where
  /-- what has been returned, `none` for `Pending` -/
  done : List (Option α)
  /-- what is left -/
  rest : List (Option α)

/-- The inner stream. -/
def script : PollStream (ScriptState α) α where
  pollNext s :=
    match s.rest with
    | [] => (.ready none, s)
    | some item :: rest => (.ready (some item), ⟨s.done ++ [some item], rest⟩)
    | none :: rest => (.pending, ⟨s.done ++ [none], rest⟩)
  size s := s.rest.length
  shrinks s hs := by
    obtain ⟨done, rest⟩ := s
    cases rest with
    | nil => exact absurd rfl hs
    | cons o rest => cases o <;> exact Nat.lt_succ_self _

theorem items_script (done rest : List (Option α)) :
    script.items ⟨done, rest⟩ = rest.reduceOption := by
  induction rest generalizing done with
  | nil => exact items_done (S := script) rfl
  | cons o rest ih =>
      cases o with
      | none => rw [items_pending (S := script) rfl, ih, List.reduceOption_cons_of_none]
      | some item => rw [items_item (S := script) rfl, ih, List.reduceOption_cons_of_some]

/-! ### The adapters -/

structure MapState (σ α : Type) where
  stream : σ
  /-- what `f` has been called with -/
  calls : List α

/-- `Map`. -/
def map (S : PollStream σ α) (f : α → β) : PollStream (MapState σ α) β where
  pollNext s :=
    match S.pollNext s.stream with
    | (.ready (some item), t) => (.ready (some (f item)), ⟨t, s.calls ++ [item]⟩)
    | (.ready none, t) => (.ready none, ⟨t, s.calls⟩)
    | (.pending, t) => (.pending, ⟨t, s.calls⟩)
  size s := S.size s.stream
  shrinks s hs := by
    split at hs
    · next he => exact S.size_lt he nofun
    · exact absurd rfl hs
    · next he => exact S.size_lt he nofun

section Map

variable {S : PollStream σ α} {f : α → β} {s₀ t : σ} {calls : List α}

theorem map_item {item : α} (he : S.pollNext s₀ = (.ready (some item), t)) :
    (S.map f).pollNext ⟨s₀, calls⟩ = (.ready (some (f item)), ⟨t, calls ++ [item]⟩) := by
  simp only [map, he]

theorem map_done (he : S.pollNext s₀ = (.ready none, t)) :
    (S.map f).pollNext ⟨s₀, calls⟩ = (.ready none, ⟨t, calls⟩) := by
  simp only [map, he]

theorem map_pending (he : S.pollNext s₀ = (.pending, t)) :
    (S.map f).pollNext ⟨s₀, calls⟩ = (.pending, ⟨t, calls⟩) := by
  simp only [map, he]

theorem items_map : (S.map f).items ⟨s₀, calls⟩ = (S.items s₀).map f := by
  induction s₀ using S.induct generalizing calls with
  | done s₀ t he => rw [items_done he, items_done (map_done he), List.map_nil]
  | pending s₀ t he ih => rw [items_pending he, items_pending (map_pending he), ih]
  | item s₀ item t he ih => rw [items_item he, items_item (map_item he), ih, List.map_cons]

end Map

structure FilterState (σ α : Type) where
  stream : σ
  /-- what the predicate has been called with -/
  calls : List α

/-- The loop of `Filter::poll_next`. -/
def filterLoop (S : PollStream σ α) (predicate : α → Bool) (s : FilterState σ α) :
    Poll (Option α) × FilterState σ α :=
  match _he : S.pollNext s.stream with
  | (.ready (some item), t) =>
      if predicate item then (.ready (some item), ⟨t, s.calls ++ [item]⟩)
      else filterLoop S predicate ⟨t, s.calls ++ [item]⟩
  | (.ready none, t) => (.ready none, ⟨t, s.calls⟩)
  | (.pending, t) => (.pending, ⟨t, s.calls⟩)
termination_by S.size s.stream
decreasing_by exact S.size_lt _he nofun

section FilterLoop

variable {S : PollStream σ α} {predicate : α → Bool} {s₀ t : σ} {calls : List α}

theorem filterLoop_item {item : α} (he : S.pollNext s₀ = (.ready (some item), t)) :
    S.filterLoop predicate ⟨s₀, calls⟩ =
      if predicate item then (.ready (some item), ⟨t, calls ++ [item]⟩)
      else S.filterLoop predicate ⟨t, calls ++ [item]⟩ := by
  rw [filterLoop]
  split <;> simp_all

theorem filterLoop_done (he : S.pollNext s₀ = (.ready none, t)) :
    S.filterLoop predicate ⟨s₀, calls⟩ = (.ready none, ⟨t, calls⟩) := by
  rw [filterLoop]
  split <;> simp_all

theorem filterLoop_pending (he : S.pollNext s₀ = (.pending, t)) :
    S.filterLoop predicate ⟨s₀, calls⟩ = (.pending, ⟨t, calls⟩) := by
  rw [filterLoop]
  split <;> simp_all

theorem filterLoop_shrinks :
    (S.filterLoop predicate ⟨s₀, calls⟩).1 ≠ .ready none →
      S.size (S.filterLoop predicate ⟨s₀, calls⟩).2.stream < S.size s₀ := by
  induction s₀ using S.induct generalizing calls with
  | done s₀ t he =>
      rw [filterLoop_done he]
      exact fun h => absurd rfl h
  | pending s₀ t he ih =>
      rw [filterLoop_pending he]
      exact fun _ => S.size_lt he nofun
  | item s₀ item t he ih =>
      have ht : S.size t < S.size s₀ := S.size_lt he nofun
      rw [filterLoop_item he]
      split
      · exact fun _ => ht
      · exact fun h => Nat.lt_trans (ih h) ht

end FilterLoop

/-- `Filter`. -/
def filter (S : PollStream σ α) (predicate : α → Bool) : PollStream (FilterState σ α) α where
  pollNext := S.filterLoop predicate
  size s := S.size s.stream
  shrinks _ := filterLoop_shrinks

theorem items_filter {S : PollStream σ α} {predicate : α → Bool} {s₀ : σ} {calls : List α} :
    (S.filter predicate).items ⟨s₀, calls⟩ = (S.items s₀).filter predicate := by
  induction s₀ using S.induct generalizing calls with
  | done s₀ t he =>
      rw [items_done he, items_done (S := S.filter predicate) (filterLoop_done he), List.filter_nil]
  | pending s₀ t he ih =>
      rw [items_pending he, items_pending (S := S.filter predicate) (filterLoop_pending he), ih]
  | item s₀ item t he ih =>
      have hl : S.filterLoop predicate ⟨s₀, calls⟩ = _ := filterLoop_item he
      rw [items_item he]
      by_cases hp : predicate item = true
      · rw [if_pos hp] at hl
        rw [items_item (S := S.filter predicate) hl, ih, List.filter_cons_of_pos hp]
      · -- the loop goes on with the next item, within the same poll
        rw [if_neg hp] at hl
        rw [items_congr (S := S.filter predicate) hl, ih, List.filter_cons_of_neg hp]

structure TakeState (σ α : Type) where
  stream : σ
  remaining : ℕ
  /-- the items that were returned -/
  yielded : List α
  /-- how often `stream` was polled when all items it should give had been returned -/
  late : ℕ

/-- The stream is polled once more. -/
def TakeState.asked (n : ℕ) (s : TakeState σ α) : ℕ :=
  if n ≤ s.yielded.length then s.late + 1 else s.late

/-- `Take`. -/
def take (S : PollStream σ α) (n : ℕ) : PollStream (TakeState σ α) α where
  pollNext s :=
    if s.remaining = 0 then (.ready none, s)
    else
      match S.pollNext s.stream with
      | (.ready (some item), t) =>
          (.ready (some item), ⟨t, s.remaining - 1, s.yielded ++ [item], s.asked n⟩)
      | (.ready none, t) => (.ready none, ⟨t, s.remaining, s.yielded, s.asked n⟩)
      | (.pending, t) => (.pending, ⟨t, s.remaining, s.yielded, s.asked n⟩)
  size s := S.size s.stream
  shrinks s hs := by
    split at hs
    · exact absurd rfl hs
    · next hr =>
        rw [if_neg hr]
        split at hs
        · next he => exact S.size_lt he nofun
        · exact absurd rfl hs
        · next he => exact S.size_lt he nofun

section Take

variable {S : PollStream σ α} {n m late : ℕ} {s₀ t : σ} {yielded : List α}

theorem take_zero :
    (S.take n).pollNext ⟨s₀, 0, yielded, late⟩ = (.ready none, ⟨s₀, 0, yielded, late⟩) := rfl

theorem take_item {item : α} (he : S.pollNext s₀ = (.ready (some item), t)) :
    (S.take n).pollNext ⟨s₀, m + 1, yielded, late⟩ = (.ready (some item),
      ⟨t, m, yielded ++ [item], TakeState.asked n ⟨s₀, m + 1, yielded, late⟩⟩) := by
  simp only [take, he, Nat.succ_ne_zero, if_false, Nat.add_sub_cancel]

theorem take_done (he : S.pollNext s₀ = (.ready none, t)) :
    (S.take n).pollNext ⟨s₀, m + 1, yielded, late⟩ = (.ready none,
      ⟨t, m + 1, yielded, TakeState.asked n ⟨s₀, m + 1, yielded, late⟩⟩) := by
  simp only [take, he, Nat.succ_ne_zero, if_false]

theorem take_pending (he : S.pollNext s₀ = (.pending, t)) :
    (S.take n).pollNext ⟨s₀, m + 1, yielded, late⟩ = (.pending,
      ⟨t, m + 1, yielded, TakeState.asked n ⟨s₀, m + 1, yielded, late⟩⟩) := by
  simp only [take, he, Nat.succ_ne_zero, if_false]

theorem items_take : (S.take n).items ⟨s₀, m, yielded, late⟩ = (S.items s₀).take m := by
  induction s₀ using S.induct generalizing m yielded late with
  | done s₀ t he =>
      cases m with
      | zero => rw [items_done take_zero, List.take_zero]
      | succ m => rw [items_done he, items_done (take_done he), List.take_nil]
  | pending s₀ t he ih =>
      cases m with
      | zero => rw [items_done take_zero, List.take_zero]
      | succ m => rw [items_pending he, items_pending (take_pending he), ih]
  | item s₀ item t he ih =>
      cases m with
      | zero => rw [items_done take_zero, List.take_zero]
      | succ m => rw [items_item he, items_item (take_item he), ih, List.take_succ_cons]

end Take

/-- What a poll gives. -/
def given : Poll (Option α) → List α
  | .ready (some item) => [item]
  | .ready none => []
  | .pending => []

/-! ### The drivers -/

/-- The loop of the drivers: each item is pushed, until there is none. -/
def drive {τ : Type} (S : PollStream σ α) (push : τ → α → τ) (s : σ) (x : τ) :
    Poll Unit × σ × τ :=
  match _he : S.pollNext s with
  | (.ready (some item), t) => drive S push t (push x item)
  | (.ready none, t) => (.ready (), t, x)
  | (.pending, t) => (.pending, t, x)
termination_by S.size s
decreasing_by exact S.size_lt _he nofun

section Drive

variable {τ : Type} {S : PollStream σ α} {push : τ → α → τ} {s t : σ} {x : τ}

theorem drive_item {item : α} (he : S.pollNext s = (.ready (some item), t)) :
    S.drive push s x = S.drive push t (push x item) := by
  rw [drive]
  split <;> simp_all

theorem drive_done (he : S.pollNext s = (.ready none, t)) :
    S.drive push s x = (.ready (), t, x) := by
  rw [drive]
  split <;> simp_all

theorem drive_pending (he : S.pollNext s = (.pending, t)) :
    S.drive push s x = (.pending, t, x) := by
  rw [drive]
  split <;> simp_all

end Drive

end PollStream

/-- A future; a poll may panic. -/
structure PollFuture (σ ρ : Type) where
  poll : σ → Except String (Poll ρ) × σ

namespace PollFuture

variable {σ ρ : Type} (F : PollFuture σ ρ)

/-- The future when it has been polled `n` times. -/
def after (s : σ) : ℕ → σ
  | 0 => s
  | n + 1 => (F.poll (after s n)).2

/-- `k` polls are pending, and the next one is ready with `r`. -/
def Resolves (s : σ) (k : ℕ) (r : ρ) : Prop :=
  (∀ j < k, (F.poll (F.after s j)).1 = .ok .pending) ∧ (F.poll (F.after s k)).1 = .ok (.ready r)

theorem after_poll (s : σ) (n : ℕ) : F.after (F.poll s).2 n = F.after s (n + 1) := by
  induction n with
  | zero => rfl
  | succ n ih => exact congrArg (fun s => (F.poll s).2) ih

variable {F} {Inv Fin : σ → Prop} {r : ρ}

/-- A future whose pending polls keep an invariant and lower a measure resolves. -/
theorem resolves (size : σ → ℕ)
    (step : ∀ s, Inv s → (F.poll s).1 = .ok .pending ∧ Inv (F.poll s).2 ∧
        size (F.poll s).2 < size s ∨
      (F.poll s).1 = .ok (.ready r) ∧ Fin (F.poll s).2) {s : σ} (hs : Inv s) :
    ∃ k, F.Resolves s k r ∧ (∀ j ≤ k, Inv (F.after s j)) ∧ Fin (F.after s (k + 1)) := by
  induction hn : size s using Nat.strong_induction_on generalizing s with
  | _ n ih =>
      subst hn
      rcases step s hs with ⟨hp, hi, hlt⟩ | ⟨hr, hf⟩
      · obtain ⟨k, ⟨hpend, hready⟩, hinv, hfin⟩ := ih _ hlt hi rfl
        simp only [after_poll] at hpend hready hinv hfin
        refine ⟨k + 1, ⟨fun j hj => ?_, hready⟩, fun j hj => ?_, hfin⟩
        · cases j with
          | zero => exact hp
          | succ j => exact hpend j (Nat.lt_of_succ_lt_succ hj)
        · cases j with
          | zero => exact hs
          | succ j => exact hinv j (Nat.le_of_succ_le_succ hj)
      · exact ⟨0, ⟨nofun, hr⟩, fun j hj => Nat.le_zero.1 hj ▸ hs, hf⟩

end PollFuture

namespace PollStream

variable {σ α γ : Type}

structure FoldState (σ α γ : Type) where
  stream : σ
  acc : Option γ
  /-- what `f` has been called with, as to the items -/
  calls : List α

/-- The text of the two `expect`s of `Fold::poll`. -/
def foldPolledAfterCompletion : String := "fold polled after completion"

/-- The loop of `Fold::poll`; `acc` is moved out and back. -/
def foldLoop (S : PollStream σ α) (f : γ → α → γ) (s : FoldState σ α γ) :
    Except String (Poll γ) × FoldState σ α γ :=
  match _he : S.pollNext s.stream with
  | (.ready (some item), t) =>
      match s.acc with
      | none => (.error foldPolledAfterCompletion, ⟨t, none, s.calls⟩)
      | some acc => foldLoop S f ⟨t, some (f acc item), s.calls ++ [item]⟩
  | (.ready none, t) =>
      match s.acc with
      | none => (.error foldPolledAfterCompletion, ⟨t, none, s.calls⟩)
      | some acc => (.ok (.ready acc), ⟨t, none, s.calls⟩)
  | (.pending, t) => (.ok .pending, ⟨t, s.acc, s.calls⟩)
termination_by S.size s.stream
decreasing_by exact S.size_lt _he nofun

/-- With an accumulator, the loop is the loop of the other drivers. -/
theorem foldLoop_some {S : PollStream σ α} {f : γ → α → γ} {s₀ : σ} {acc : γ} {calls : List α} :
    S.foldLoop f ⟨s₀, some acc, calls⟩ =
      match S.drive (fun (x : γ × List α) item => (f x.1 item, x.2 ++ [item])) s₀ (acc, calls) with
      | (.ready (), t, x) => (.ok (.ready x.1), ⟨t, none, x.2⟩)
      | (.pending, t, x) => (.ok .pending, ⟨t, some x.1, x.2⟩) := by
  induction s₀ using S.induct generalizing acc calls with
  | done s₀ t he =>
      rw [foldLoop, drive_done he]
      split <;> simp_all
  | pending s₀ t he ih =>
      rw [foldLoop, drive_pending he]
      split <;> simp_all
  | item s₀ item t he ih =>
      rw [foldLoop, drive_item he, ← ih]
      split <;> simp_all

/-- `Fold`. -/
def fold (S : PollStream σ α) (f : γ → α → γ) : PollFuture (FoldState σ α γ) γ where
  poll := S.foldLoop f

structure ForEachState (σ α : Type) where
  stream : σ
  /-- what `f` has been called with -/
  calls : List α

/-- `ForEach`. -/
def forEach (S : PollStream σ α) : PollFuture (ForEachState σ α) Unit where
  poll s :=
    match S.drive (fun calls item => calls ++ [item]) s.stream s.calls with
    | (.ready (), t, calls) => (.ok (.ready ()), ⟨t, calls⟩)
    | (.pending, t, calls) => (.ok .pending, ⟨t, calls⟩)

structure CollectState (σ α : Type) where
  stream : σ
  items : List α

/-- `Collect`; the vector is taken when it is returned. -/
def collect (S : PollStream σ α) : PollFuture (CollectState σ α) (List α) where
  poll s :=
    match S.drive (fun items item => items ++ [item]) s.stream s.items with
    | (.ready (), t, items) => (.ok (.ready items), ⟨t, []⟩)
    | (.pending, t, items) => (.ok .pending, ⟨t, items⟩)

end PollStream

/-! ### Compositions -/

open PollStream

/-- A composition of adapters over a stream of `α`: its states, and the items it gives. -/
inductive Pipe (α : Type) : Type → Type → Type 1 where
  | source : Pipe α (ScriptState α) α
  | map {σ β γ : Type} (p : Pipe α σ β) (f : β → γ) : Pipe α (MapState σ β) γ
  | filter {σ β : Type} (p : Pipe α σ β) (predicate : β → Bool) : Pipe α (FilterState σ β) β
  | take {σ β : Type} (p : Pipe α σ β) (n : ℕ) : Pipe α (TakeState σ β) β

namespace Pipe

variable {α σ β : Type}

def stream : {σ β : Type} → Pipe α σ β → PollStream σ β
  | _, _, .source => script
  | _, _, .map p f => p.stream.map f
  | _, _, .filter p predicate => p.stream.filter predicate
  | _, _, .take p n => p.stream.take n

/-- The composition, made over the inner stream. -/
def start (l : List (Option α)) : {σ β : Type} → Pipe α σ β → σ
  | _, _, .source => ⟨[], l⟩
  | _, _, .map p _ => ⟨p.start l, []⟩
  | _, _, .filter p _ => ⟨p.start l, []⟩
  | _, _, .take p n => ⟨p.start l, n, [], 0⟩

/-- The list function it stands for. -/
def onList : {σ β : Type} → Pipe α σ β → List α → List β
  | _, _, .source, l => l
  | _, _, .map p f, l => (p.onList l).map f
  | _, _, .filter p predicate, l => (p.onList l).filter predicate
  | _, _, .take p n, l => (p.onList l).take n

/-- What it has returned so far. -/
def yielded : {σ β : Type} → Pipe α σ β → σ → List β
  | _, _, .source, s => s.done.reduceOption
  | _, _, .map _ f, s => s.calls.map f
  | _, _, .filter _ predicate, s => s.calls.filter predicate
  | _, _, .take _ _, s => s.yielded

/-- Each closure has been called with the items that the stream before it has returned, once each
and in their order; and `take` has not polled the stream before it when that had returned the items
it should. -/
def Kept (l : List (Option α)) : {σ β : Type} → Pipe α σ β → σ → Prop
  | _, _, .source, s => s.done ++ s.rest = l
  | _, _, .map p _, s => p.Kept l s.stream ∧ s.calls = p.yielded s.stream
  | _, _, .filter p _, s => p.Kept l s.stream ∧ s.calls = p.yielded s.stream
  | _, _, .take p n, s => p.Kept l s.stream ∧ s.yielded = p.yielded s.stream ∧
      s.remaining + s.yielded.length = n ∧ s.late = 0

theorem start_kept (l : List (Option α)) (p : Pipe α σ β) :
    p.Kept l (p.start l) ∧ p.yielded (p.start l) = [] := by
  induction p with
  | source => exact ⟨rfl, rfl⟩
  | map p f ih => exact ⟨⟨ih.1, ih.2.symm⟩, rfl⟩
  | filter p predicate ih => exact ⟨⟨ih.1, ih.2.symm⟩, rfl⟩
  | take p n ih => exact ⟨⟨ih.1, ih.2.symm, rfl, rfl⟩, rfl⟩

/-- What has been returned and what is still to come make up the list. -/
theorem Kept.yielded_append {l : List (Option α)} {p : Pipe α σ β} {s : σ} (hs : p.Kept l s) :
    p.yielded s ++ p.stream.items s = p.onList l.reduceOption := by
  induction p with
  | source =>
      obtain ⟨done, rest⟩ := s
      obtain rfl : done ++ rest = l := hs
      rw [onList, List.reduceOption_append]
      exact congrArg _ (items_script done rest)
  | map p f ih =>
      obtain ⟨s₀, calls⟩ := s
      obtain ⟨h₀, rfl⟩ : p.Kept l s₀ ∧ calls = p.yielded s₀ := hs
      rw [onList, ← ih h₀, List.map_append]
      exact congrArg _ items_map
  | filter p predicate ih =>
      obtain ⟨s₀, calls⟩ := s
      obtain ⟨h₀, rfl⟩ : p.Kept l s₀ ∧ calls = p.yielded s₀ := hs
      rw [onList, ← ih h₀, List.filter_append]
      exact congrArg _ items_filter
  | take p n ih =>
      obtain ⟨s₀, m, yielded, late⟩ := s
      obtain ⟨h₀, rfl, rfl, rfl⟩ : p.Kept l s₀ ∧ yielded = p.yielded s₀ ∧
        m + yielded.length = n ∧ late = 0 := hs
      rw [onList, ← ih h₀, Nat.add_comm, List.take_length_add_append]
      exact congrArg _ items_take

/-! One poll of each adapter, over a stream that keeps its own account. -/

section Step

variable {l : List (Option α)} {p : Pipe α σ β}

/-- What a poll of the stream does. -/
def StepKept (l : List (Option α)) (p : Pipe α σ β) : Prop :=
  ∀ {s t : σ} {r : Poll (Option β)}, p.Kept l s → p.stream.pollNext s = (r, t) →
    p.Kept l t ∧ p.yielded t = p.yielded s ++ given r

theorem StepKept.nothing (step : StepKept l p) {s t : σ} {r : Poll (Option β)} (hs : p.Kept l s)
    (he : p.stream.pollNext s = (r, t)) (hr : given r = []) :
    p.Kept l t ∧ p.yielded s = p.yielded t := by
  obtain ⟨hk, hy⟩ := step hs he
  rw [hr, List.append_nil] at hy
  exact ⟨hk, hy.symm⟩

theorem StepKept.item (step : StepKept l p) {s t : σ} {item : β} (hs : p.Kept l s)
    (he : p.stream.pollNext s = (.ready (some item), t)) :
    p.Kept l t ∧ p.yielded s ++ [item] = p.yielded t := by
  obtain ⟨hk, hy⟩ := step hs he
  exact ⟨hk, hy.symm⟩

theorem source_kept {l : List (Option α)} : StepKept l (.source : Pipe α (ScriptState α) α) := by
  intro s t r hs he
  obtain ⟨done, rest⟩ := s
  obtain rfl : done ++ rest = l := hs
  cases rest with
  | nil =>
      cases he
      exact ⟨rfl, (List.append_nil _).symm⟩
  | cons o rest =>
      cases o with
      | none =>
          cases he
          exact ⟨List.append_assoc done [none] rest, List.reduceOption_append done [none]⟩
      | some item =>
          cases he
          exact ⟨List.append_assoc done [some item] rest,
            List.reduceOption_append done [some item]⟩

theorem map_kept {γ : Type} {f : β → γ} (step : StepKept l p) : StepKept l (p.map f) := by
  intro s t r hs he
  obtain ⟨s₀, calls⟩ := s
  obtain ⟨h₀, rfl⟩ : p.Kept l s₀ ∧ calls = p.yielded s₀ := hs
  match hu : p.stream.pollNext s₀ with
  | (.ready none, u) =>
      cases (map_done hu).symm.trans he
      exact ⟨step.nothing h₀ hu rfl, (List.append_nil _).symm⟩
  | (.pending, u) =>
      cases (map_pending hu).symm.trans he
      exact ⟨step.nothing h₀ hu rfl, (List.append_nil _).symm⟩
  | (.ready (some item), u) =>
      cases (map_item hu).symm.trans he
      exact ⟨step.item h₀ hu, List.map_append⟩

theorem filterLoop_kept {predicate : β → Bool} {s₀ : σ} {r : Poll (Option β)}
    {t : FilterState σ β} (step : StepKept l p) (hs : p.Kept l s₀)
    (he : p.stream.filterLoop predicate ⟨s₀, p.yielded s₀⟩ = (r, t)) :
    (p.filter predicate).Kept l t ∧
      t.calls.filter predicate = (p.yielded s₀).filter predicate ++ given r := by
  induction s₀ using p.stream.induct with
  | done s₀ u hu =>
      rw [filterLoop_done hu] at he
      cases he
      exact ⟨step.nothing hs hu rfl, (List.append_nil _).symm⟩
  | pending s₀ u hu ih =>
      rw [filterLoop_pending hu] at he
      cases he
      exact ⟨step.nothing hs hu rfl, (List.append_nil _).symm⟩
  | item s₀ item u hu ih =>
      obtain ⟨h₀, hy⟩ := step.item hs hu
      rw [filterLoop_item hu, hy] at he
      by_cases hp : predicate item = true
      · rw [if_pos hp] at he
        cases he
        refine ⟨⟨h₀, rfl⟩, ?_⟩
        rw [← hy, List.filter_append, List.filter_singleton, hp]
        rfl
      · rw [if_neg hp] at he
        obtain ⟨hk, hf⟩ := ih h₀ he
        refine ⟨hk, hf.trans ?_⟩
        rw [← hy, List.filter_append, List.filter_singleton, Bool.eq_false_iff.2 hp]
        simp

theorem take_kept {n : ℕ} (step : StepKept l p) : StepKept l (p.take n) := by
  intro s t r hs he
  obtain ⟨s₀, m, yielded, late⟩ := s
  obtain ⟨h₀, rfl, hn, rfl⟩ : p.Kept l s₀ ∧ yielded = p.yielded s₀ ∧
    m + yielded.length = n ∧ late = 0 := hs
  cases m with
  | zero =>
      cases he
      exact ⟨⟨h₀, rfl, hn, rfl⟩, (List.append_nil _).symm⟩
  | succ m =>
      -- there is an item left to give, so this poll is not late
      have ha : TakeState.asked n ⟨s₀, m + 1, p.yielded s₀, 0⟩ = 0 := if_neg (by grind)
      match hu : p.stream.pollNext s₀ with
      | (.ready none, u) =>
          obtain ⟨hk, hy⟩ := step.nothing h₀ hu rfl
          cases (take_done hu).symm.trans he
          exact ⟨⟨hk, hy, hn, ha⟩, (List.append_nil _).symm⟩
      | (.pending, u) =>
          obtain ⟨hk, hy⟩ := step.nothing h₀ hu rfl
          cases (take_pending hu).symm.trans he
          exact ⟨⟨hk, hy, hn, ha⟩, (List.append_nil _).symm⟩
      | (.ready (some item), u) =>
          obtain ⟨hk, hy⟩ := step.item h₀ hu
          cases (take_item hu).symm.trans he
          refine ⟨⟨hk, hy, ?_, ha⟩, rfl⟩
          show m + (p.yielded s₀ ++ [item]).length = n
          rw [← hn, List.length_append, List.length_singleton]
          omega

end Step

/-- **One poll.**  It keeps the account, and what it gives is added to what has been returned. -/
theorem pollNext_kept {l : List (Option α)} {p : Pipe α σ β} : StepKept l p := by
  induction p with
  | source => exact source_kept
  | map p f ih => exact map_kept ih
  | filter p predicate ih =>
      rintro ⟨s₀, calls⟩ t r hs he
      obtain ⟨h₀, rfl⟩ : p.Kept l s₀ ∧ calls = p.yielded s₀ := hs
      exact filterLoop_kept ih h₀ he
  | take p n ih => exact take_kept ih

/-! ### Runs -/

theorem Kept.yielded_of_done {l : List (Option α)} {p : Pipe α σ β} {s t : σ} (hs : p.Kept l s)
    (he : p.stream.pollNext s = (.ready none, t)) : p.yielded s = p.onList l.reduceOption := by
  rw [← hs.yielded_append, items_done he, List.append_nil]

/-- The stream has ended: each closure has been called with all the items that there are for it,
unless a `take` after it has enough. -/
def Complete (l : List (Option α)) : {σ β : Type} → Pipe α σ β → σ → Prop
  | _, _, .source, s => s.rest = []
  | _, _, .map p _, s => p.Complete l s.stream ∧ s.calls = p.onList l.reduceOption
  | _, _, .filter p _, s => p.Complete l s.stream ∧ s.calls = p.onList l.reduceOption
  | _, _, .take p _, s => s.remaining = 0 ∨ p.Complete l s.stream

theorem filterLoop_complete {l : List (Option α)} {p : Pipe α σ β} {predicate : β → Bool} {s₀ : σ}
    {t : FilterState σ β}
    (step : ∀ {s t : σ}, p.Kept l s → p.stream.pollNext s = (.ready none, t) → p.Complete l t)
    (hs : p.Kept l s₀)
    (he : p.stream.filterLoop predicate ⟨s₀, p.yielded s₀⟩ = (.ready none, t)) :
    (p.filter predicate).Complete l t := by
  induction s₀ using p.stream.induct with
  | done s₀ u hu =>
      rw [filterLoop_done hu] at he
      cases he
      exact ⟨step hs hu, hs.yielded_of_done hu⟩
  | pending s₀ u hu ih =>
      rw [filterLoop_pending hu] at he
      cases he
  | item s₀ item u hu ih =>
      obtain ⟨h₀, hy⟩ := pollNext_kept hs hu
      rw [given] at hy
      rw [filterLoop_item hu, ← hy] at he
      by_cases hp : predicate item = true
      · rw [if_pos hp] at he
        cases he
      · rw [if_neg hp] at he
        exact ih h₀ he

theorem pollNext_complete {l : List (Option α)} {p : Pipe α σ β} {s t : σ} (hs : p.Kept l s)
    (he : p.stream.pollNext s = (.ready none, t)) : p.Complete l t := by
  induction p with
  | source =>
      obtain ⟨done, rest⟩ := s
      cases rest with
      | nil =>
          cases he
          exact rfl
      | cons o rest => cases o <;> cases he
  | map p f ih =>
      obtain ⟨s₀, calls⟩ := s
      obtain ⟨h₀, rfl⟩ : p.Kept l s₀ ∧ calls = p.yielded s₀ := hs
      match hu : p.stream.pollNext s₀ with
      | (.ready none, u) =>
          cases (map_done hu).symm.trans he
          exact ⟨ih h₀ hu, h₀.yielded_of_done hu⟩
      | (.pending, u) => cases (map_pending hu).symm.trans he
      | (.ready (some item), u) => cases (map_item hu).symm.trans he
  | filter p predicate ih =>
      obtain ⟨s₀, calls⟩ := s
      obtain ⟨h₀, rfl⟩ : p.Kept l s₀ ∧ calls = p.yielded s₀ := hs
      exact filterLoop_complete ih h₀ he
  | take p n ih =>
      obtain ⟨s₀, m, yielded, late⟩ := s
      have h₀ : p.Kept l s₀ := hs.1
      cases m with
      | zero =>
          cases he
          exact .inl rfl
      | succ m =>
          match hu : p.stream.pollNext s₀ with
          | (.ready none, u) =>
              cases (take_done hu).symm.trans he
              exact .inr (ih h₀ hu)
          | (.pending, u) => cases (take_pending hu).symm.trans he
          | (.ready (some item), u) => cases (take_item hu).symm.trans he

/-- One poll of a driver pulls the items up to the next `Pending`, or all that are left. -/
theorem drive_kept {τ : Type} {l : List (Option α)} {p : Pipe α σ β} {s : σ} (hs : p.Kept l s)
    (push : τ → β → τ) (x : τ) :
    ∃ r t pulled, p.stream.drive push s x = (r, t, pulled.foldl push x) ∧ p.Kept l t ∧
      p.yielded t = p.yielded s ++ pulled ∧
      (r = .pending ∧ p.stream.size t < p.stream.size s ∨
        r = .ready () ∧ p.Complete l t ∧ p.yielded t = p.onList l.reduceOption) := by
  induction s using p.stream.induct generalizing x with
  | done s t he =>
      obtain ⟨hk, hy⟩ := pollNext_kept hs he
      refine ⟨.ready (), t, [], drive_done he, hk, hy, .inr ⟨rfl, pollNext_complete hs he, ?_⟩⟩
      rw [hy, given, List.append_nil, hs.yielded_of_done he]
  | pending s t he ih =>
      obtain ⟨hk, hy⟩ := pollNext_kept hs he
      exact ⟨.pending, t, [], drive_pending he, hk, hy, .inl ⟨rfl, p.stream.size_lt he nofun⟩⟩
  | item s item t he ih =>
      obtain ⟨hk, hy⟩ := pollNext_kept hs he
      obtain ⟨r, u, pulled, hd, hu, hyu, hr⟩ := ih hk (push x item)
      have hlt : p.stream.size t < p.stream.size s := p.stream.size_lt he nofun
      refine ⟨r, u, item :: pulled, (drive_item he).trans hd, hu, ?_, ?_⟩
      · rw [hyu, hy, given, List.append_assoc, List.singleton_append]
      · rcases hr with ⟨hp, hlt'⟩ | hr
        · exact .inl ⟨hp, Nat.lt_trans hlt' hlt⟩
        · exact .inr hr

/-- A driver of a composition, polled until it is ready.  `stream` is the composition's state in the
driver's, and `held` the items the driver has handled. -/
structure Drives {τ ρ : Type} (l : List (Option α)) (p : Pipe α σ β) (F : PollFuture τ ρ)
    (stream : τ → σ) (held : τ → List β) (s : τ) (k : ℕ) (r : ρ) : Prop where
  resolves : F.Resolves s k r
  kept : ∀ j ≤ k + 1, p.Kept l (stream (F.after s j))
  handled : ∀ j ≤ k, held (F.after s j) = p.yielded (stream (F.after s j))
  /-- no item is lost, at any `Pending` -/
  conserved : ∀ j ≤ k + 1, p.yielded (stream (F.after s j)) ++
    p.stream.items (stream (F.after s j)) = p.onList l.reduceOption
  complete : p.Complete l (stream (F.after s (k + 1)))

section Drivers

variable {τ ρ : Type} {l : List (Option α)} {p : Pipe α σ β} {F : PollFuture τ ρ}
  {stream : τ → σ} {held : τ → List β} {r : ρ}

theorem drives_of_step (Inv Fin : τ → Prop)
    (inv : ∀ s, Inv s → p.Kept l (stream s) ∧ held s = p.yielded (stream s))
    (fin : ∀ s, Fin s → p.Kept l (stream s) ∧ p.Complete l (stream s))
    (step : ∀ s, Inv s → (F.poll s).1 = .ok .pending ∧ Inv (F.poll s).2 ∧
        p.stream.size (stream (F.poll s).2) < p.stream.size (stream s) ∨
      (F.poll s).1 = .ok (.ready r) ∧ Fin (F.poll s).2) {s : τ} (hs : Inv s) :
    ∃ k, p.Drives l F stream held s k r ∧ Fin (F.after s (k + 1)) := by
  obtain ⟨k, hr, hinv, hfin⟩ := PollFuture.resolves (fun s => p.stream.size (stream s)) step hs
  have hk : ∀ j ≤ k + 1, p.Kept l (stream (F.after s j)) := by
    intro j hj
    rcases Nat.lt_or_ge k j with h | h
    · rw [Nat.le_antisymm hj h]
      exact (fin _ hfin).1
    · exact (inv _ (hinv j h)).1
  exact ⟨k, ⟨hr, hk, fun j hj => (inv _ (hinv j hj)).2, fun j hj => (hk j hj).yielded_append,
    (fin _ hfin).2⟩, hfin⟩

/-! `Fold` -/

section Fold

variable {γ : Type} (f : γ → β → γ) (init : γ)

/-- Between two polls, the accumulator is there and has all the items that were returned. -/
def FoldInv (l : List (Option α)) (p : Pipe α σ β) (s : FoldState σ β γ) : Prop :=
  p.Kept l s.stream ∧ s.calls = p.yielded s.stream ∧ s.acc = some (s.calls.foldl f init)

def FoldFin (l : List (Option α)) (p : Pipe α σ β) (s : FoldState σ β γ) : Prop :=
  p.Kept l s.stream ∧ p.Complete l s.stream ∧ s.calls = p.onList l.reduceOption

variable {f init}

theorem foldl_push (l calls : List β) (acc : γ) :
    l.foldl (fun (x : γ × List β) item => (f x.1 item, x.2 ++ [item])) (acc, calls) =
      (l.foldl f acc, calls ++ l) := by
  induction l generalizing acc calls with
  | nil => exact congrArg _ (List.append_nil calls).symm
  | cons item l ih => rw [List.foldl_cons, ih, List.foldl_cons, ← List.append_cons]

theorem fold_poll {s : FoldState σ β γ} (hs : FoldInv f init l p s) :
    ((p.stream.fold f).poll s).1 = .ok .pending ∧ FoldInv f init l p ((p.stream.fold f).poll s).2 ∧
        p.stream.size ((p.stream.fold f).poll s).2.stream < p.stream.size s.stream ∨
      ((p.stream.fold f).poll s).1 = .ok (.ready ((p.onList l.reduceOption).foldl f init)) ∧
        FoldFin l p ((p.stream.fold f).poll s).2 := by
  obtain ⟨s₀, acc, calls⟩ := s
  obtain ⟨hk, rfl, rfl⟩ : p.Kept l s₀ ∧ calls = p.yielded s₀ ∧ acc = some (calls.foldl f init) := hs
  obtain ⟨r, t, pulled, hd, ht, hy, hr⟩ := drive_kept hk (fun (x : γ × List β) item =>
    (f x.1 item, x.2 ++ [item])) ((p.yielded s₀).foldl f init, p.yielded s₀)
  have hp : (p.stream.fold f).poll ⟨s₀, some ((p.yielded s₀).foldl f init), p.yielded s₀⟩ = _ :=
    foldLoop_some
  rw [foldl_push, ← List.foldl_append, ← hy] at hd
  rw [hd] at hp
  rcases hr with ⟨rfl, hlt⟩ | ⟨rfl, hc, ho⟩
  · rw [hp]
    exact .inl ⟨rfl, ⟨ht, rfl, rfl⟩, hlt⟩
  · rw [hp, ho]
    exact .inr ⟨rfl, ht, hc, rfl⟩

end Fold

/-! `ForEach` and `Collect` -/

def ForEachInv (l : List (Option α)) (p : Pipe α σ β) (s : ForEachState σ β) : Prop :=
  p.Kept l s.stream ∧ s.calls = p.yielded s.stream

def ForEachFin (l : List (Option α)) (p : Pipe α σ β) (s : ForEachState σ β) : Prop :=
  p.Kept l s.stream ∧ p.Complete l s.stream ∧ s.calls = p.onList l.reduceOption

theorem forEach_poll {s : ForEachState σ β} (hs : ForEachInv l p s) :
    (p.stream.forEach.poll s).1 = .ok .pending ∧ ForEachInv l p (p.stream.forEach.poll s).2 ∧
        p.stream.size (p.stream.forEach.poll s).2.stream < p.stream.size s.stream ∨
      (p.stream.forEach.poll s).1 = .ok (.ready ()) ∧
        ForEachFin l p (p.stream.forEach.poll s).2 := by
  obtain ⟨s₀, calls⟩ := s
  obtain ⟨hk, rfl⟩ : p.Kept l s₀ ∧ calls = p.yielded s₀ := hs
  obtain ⟨r, t, pulled, hd, ht, hy, hr⟩ :=
    drive_kept hk (fun calls item => calls ++ [item]) (p.yielded s₀)
  rw [List.foldl_append_eq_append, ← List.flatMap_def, List.flatMap_singleton', ← hy] at hd
  rcases hr with ⟨rfl, hlt⟩ | ⟨rfl, hc, ho⟩
  · have hp : p.stream.forEach.poll ⟨s₀, p.yielded s₀⟩ = (.ok .pending, ⟨t, p.yielded t⟩) := by
      simp only [forEach, hd]
    rw [hp]
    exact .inl ⟨rfl, ⟨ht, rfl⟩, hlt⟩
  · have hp : p.stream.forEach.poll ⟨s₀, p.yielded s₀⟩ = (.ok (.ready ()), ⟨t, p.yielded t⟩) := by
      simp only [forEach, hd]
    rw [hp]
    exact .inr ⟨rfl, ht, hc, ho⟩

/-- The vector that is being filled. -/
def CollectInv (l : List (Option α)) (p : Pipe α σ β) (s : CollectState σ β) : Prop :=
  p.Kept l s.stream ∧ s.items = p.yielded s.stream

def CollectFin (l : List (Option α)) (p : Pipe α σ β) (s : CollectState σ β) : Prop :=
  p.Kept l s.stream ∧ p.Complete l s.stream

theorem collect_poll {s : CollectState σ β} (hs : CollectInv l p s) :
    (p.stream.collect.poll s).1 = .ok .pending ∧ CollectInv l p (p.stream.collect.poll s).2 ∧
        p.stream.size (p.stream.collect.poll s).2.stream < p.stream.size s.stream ∨
      (p.stream.collect.poll s).1 = .ok (.ready (p.onList l.reduceOption)) ∧
        CollectFin l p (p.stream.collect.poll s).2 := by
  obtain ⟨s₀, items⟩ := s
  obtain ⟨hk, rfl⟩ : p.Kept l s₀ ∧ items = p.yielded s₀ := hs
  obtain ⟨r, t, pulled, hd, ht, hy, hr⟩ :=
    drive_kept hk (fun items item => items ++ [item]) (p.yielded s₀)
  rw [List.foldl_append_eq_append, ← List.flatMap_def, List.flatMap_singleton', ← hy] at hd
  rcases hr with ⟨rfl, hlt⟩ | ⟨rfl, hc, ho⟩
  · have hp : p.stream.collect.poll ⟨s₀, p.yielded s₀⟩ = (.ok .pending, ⟨t, p.yielded t⟩) := by
      simp only [collect, hd]
    rw [hp]
    exact .inl ⟨rfl, ⟨ht, rfl⟩, hlt⟩
  · have hp : p.stream.collect.poll ⟨s₀, p.yielded s₀⟩ = (.ok (.ready (p.yielded t)), ⟨t, []⟩) := by
      simp only [collect, hd]
    rw [hp, ho]
    exact .inr ⟨rfl, ht, hc⟩

end Drivers

/-- **Combinators and list functions.**  Over any script of items and `Pending`s, and for any
composition of adapters, the drivers come to an end, with the result of the list function that the
composition stands for. -/
theorem combinators_eq_lists (l : List (Option α)) (p : Pipe α σ β) :
    (∀ (γ : Type) (f : γ → β → γ) (init : γ), ∃ k,
      p.Drives l (p.stream.fold f) FoldState.stream FoldState.calls ⟨p.start l, some init, []⟩ k
        ((p.onList l.reduceOption).foldl f init) ∧
      ((p.stream.fold f).after ⟨p.start l, some init, []⟩ (k + 1)).calls =
        p.onList l.reduceOption) ∧
    (∃ k, p.Drives l p.stream.forEach ForEachState.stream ForEachState.calls ⟨p.start l, []⟩ k () ∧
      (p.stream.forEach.after ⟨p.start l, []⟩ (k + 1)).calls = p.onList l.reduceOption) ∧
    ∃ k, p.Drives l p.stream.collect CollectState.stream CollectState.items ⟨p.start l, []⟩ k
      (p.onList l.reduceOption) := by
  obtain ⟨hk, hy⟩ := p.start_kept l
  refine ⟨fun γ f init => ?_, ?_, ?_⟩
  · have hs : FoldInv f init l p ⟨p.start l, some init, []⟩ := ⟨hk, hy.symm, rfl⟩
    obtain ⟨k, hd, hf⟩ := drives_of_step (FoldInv f init l p) (FoldFin l p)
      (fun s hs => ⟨hs.1, hs.2.1⟩) (fun s hs => ⟨hs.1, hs.2.1⟩) (fun s hs => fold_poll hs) hs
    exact ⟨k, hd, hf.2.2⟩
  · have hs : ForEachInv l p ⟨p.start l, []⟩ := ⟨hk, hy.symm⟩
    obtain ⟨k, hd, hf⟩ := drives_of_step (ForEachInv l p) (ForEachFin l p)
      (fun s hs => hs) (fun s hs => ⟨hs.1, hs.2.1⟩) (fun s hs => forEach_poll hs) hs
    exact ⟨k, hd, hf.2.2⟩
  · have hs : CollectInv l p ⟨p.start l, []⟩ := ⟨hk, hy.symm⟩
    obtain ⟨k, hd, -⟩ := drives_of_step (CollectInv l p) (CollectFin l p)
      (fun s hs => hs) (fun s hs => hs) (fun s hs => collect_poll hs) hs
    exact ⟨k, hd⟩

end Pipe

end RustAsync
