import Mathlib.Data.Set.Card
import RustBase.Async.Barrier

/-!
# Async — barrier rounds

The barrier as a machine, with the history of its futures: the first polls in their order, and what
the polls that were ready returned.  A future is polled at any time by any waker, also after it has
resolved, and dropped at any time; its name is not used again.

The first polls come in groups of `n`.  `BarrierRun.Sound` says where the barrier is in its current
group, which generation every live future has joined, and that whoever is parked is of the current
one.  It is kept by every step that does not drop a participant, a future counted in the current
generation (`Abandons`); there is no `Drop` that would take such a future out of `count`.
-/

namespace RustAsync
open Support

/-! ### The machine -/

structure BarrierRun where
  barrier : BarrierState
  /-- the futures that were polled, in the order of their first polls -/
  arrivals : List FutId
  /-- what the polls that were ready returned -/
  results : List (FutId × BarrierWaitResult)
  /-- the waker of a future's last poll, if that was pending and the waker was not invoked since -/
  awaiting : FutId → Option WakerId

namespace BarrierRun

/-- `Barrier::new(n)`. -/
def new (n : ℕ) : BarrierRun where
  barrier := ⟨n, ⟨0, 0, .new⟩, fun _ => none⟩
  arrivals := []
  results := []
  awaiting := fun _ => none

def n (s : BarrierRun) : ℕ := s.barrier.n

def inner (s : BarrierRun) : BarrierInner := s.barrier.inner

def waits (s : BarrierRun) : FutId → Option BarrierWait := s.barrier.waits

def Enabled (s : BarrierRun) : BarrierAct → Prop
  | .wait f => s.waits f = none ∧ f ∉ s.arrivals
  | .poll f _ | .drop f => (s.waits f).isSome = true

instance (s : BarrierRun) : ∀ a, Decidable (s.Enabled a)
  | .wait _ => inferInstanceAs (Decidable (_ ∧ _))
  | .poll _ _ | .drop _ => inferInstanceAs (Decidable (_ = _))

/-- The future `x` is polled. -/
def pollWait (s : BarrierRun) (f : FutId) (x : BarrierWait) (w : WakerId) : BarrierRun :=
  let (result, x', woken, inner) := s.inner.poll s.n x w
  { barrier := ⟨s.n, inner, Function.update s.waits f (some x')⟩
    arrivals := if x.arrivedAt = none then s.arrivals ++ [f] else s.arrivals
    results := match result with
      | .ready r => s.results ++ [(f, r)]
      | .pending => s.results
    awaiting := Function.update (stillAwaiting s.awaiting woken) f (match result with
      | .ready _ => none
      | .pending => some w) }

def next (s : BarrierRun) : BarrierAct → BarrierRun
  | .wait f =>
      { s with barrier.waits := Function.update s.waits f (some ⟨none, none⟩) }
  | .poll f w =>
      match s.waits f with
      | some x => s.pollWait f x w
      | none => s
  | .drop f =>
      { s with
        barrier.waits := Function.update s.waits f none
        awaiting := Function.update s.awaiting f none }

/-- `f` was counted in the current generation. -/
def Participates (s : BarrierRun) (f : FutId) : Prop :=
  ∃ x ∈ s.waits f, x.arrivedAt = some s.inner.generation

instance (s : BarrierRun) (f : FutId) : Decidable (s.Participates f) :=
  inferInstanceAs (Decidable (∃ x ∈ s.waits f, _))

/-- The step drops a future that was counted in the current generation. -/
def Abandons (s : BarrierRun) : BarrierAct → Prop
  | .drop f => s.Participates f
  | .wait _ | .poll _ _ => False

instance (s : BarrierRun) : ∀ a, Decidable (s.Abandons a)
  | .drop f => inferInstanceAs (Decidable (s.Participates f))
  | .wait _ | .poll _ _ => inferInstanceAs (Decidable False)

end BarrierRun

/-- A new barrier for one or more. -/
def barrierMachine : Machine BarrierRun BarrierAct where
  Init := fun s => ∃ n, 1 ≤ n ∧ s = .new n
  Enabled := BarrierRun.Enabled
  next := BarrierRun.next

instance : ∀ s a, Decidable (barrierMachine.Enabled s a) :=
  fun s a => inferInstanceAs (Decidable (s.Enabled a))

/-! ### What a poll does -/

namespace BarrierRun

variable {s : BarrierRun} {f : FutId} {x : BarrierWait} {w : WakerId}

/-- The first poll completes the group. -/
def trip (s : BarrierRun) (f : FutId) (x : BarrierWait) : BarrierRun where
  barrier := ⟨s.n, ⟨0, s.inner.generation + 1, s.inner.waiters.wakeAll.2⟩,
    Function.update s.waits f (some ⟨some s.inner.generation, x.id⟩)⟩
  arrivals := s.arrivals ++ [f]
  results := s.results ++ [(f, ⟨true⟩)]
  awaiting := Function.update (stillAwaiting s.awaiting s.inner.waiters.wakeAll.1) f none

/-- The first poll does not complete the group. -/
def join (s : BarrierRun) (f : FutId) (x : BarrierWait) (w : WakerId) : BarrierRun where
  barrier := ⟨s.n, ⟨s.inner.count + 1, s.inner.generation, (s.inner.waiters.park x.id w).2⟩,
    Function.update s.waits f
      (some ⟨some s.inner.generation, some (s.inner.waiters.park x.id w).1⟩)⟩
  arrivals := s.arrivals ++ [f]
  results := s.results
  awaiting := Function.update (stillAwaiting s.awaiting []) f (some w)

/-- A later poll, after the group was completed. -/
def leave (s : BarrierRun) (f : FutId) (x : BarrierWait) : BarrierRun where
  barrier := ⟨s.n, { s.inner with waiters := s.inner.waiters.unpark x.id },
    Function.update s.waits f (some ⟨x.arrivedAt, none⟩)⟩
  arrivals := s.arrivals
  results := s.results ++ [(f, ⟨false⟩)]
  awaiting := Function.update (stillAwaiting s.awaiting []) f none

/-- A later poll, before the group is completed. -/
def stay (s : BarrierRun) (f : FutId) (x : BarrierWait) (w : WakerId) : BarrierRun where
  barrier := ⟨s.n, { s.inner with waiters := (s.inner.waiters.park x.id w).2 },
    Function.update s.waits f (some ⟨x.arrivedAt, some (s.inner.waiters.park x.id w).1⟩)⟩
  arrivals := s.arrivals
  results := s.results
  awaiting := Function.update (stillAwaiting s.awaiting []) f (some w)

theorem pollWait_cases (s : BarrierRun) (f : FutId) (x : BarrierWait) (w : WakerId) :
    (x.arrivedAt = none ∧ s.n ≤ s.inner.count + 1 ∧ s.pollWait f x w = s.trip f x) ∨
    (x.arrivedAt = none ∧ s.inner.count + 1 < s.n ∧ s.pollWait f x w = s.join f x w) ∨
    (∃ g, x.arrivedAt = some g ∧ g ≠ s.inner.generation ∧ s.pollWait f x w = s.leave f x) ∨
    (x.arrivedAt = some s.inner.generation ∧ s.pollWait f x w = s.stay f x w) := by
  obtain ⟨arrivedAt, id⟩ := x
  cases arrivedAt with
  | none =>
      by_cases h : s.n ≤ s.inner.count + 1
      · exact .inl ⟨rfl, h, by simp [pollWait, BarrierInner.poll, h, trip]⟩
      · refine .inr (.inl ⟨rfl, Nat.lt_of_not_le h, ?_⟩)
        simp [pollWait, BarrierInner.poll, BarrierInner.park, h, join]
  | some g =>
      by_cases h : s.inner.generation = g
      · subst h
        refine .inr (.inr (.inr ⟨rfl, ?_⟩))
        simp [pollWait, BarrierInner.poll, BarrierInner.park, stay]
      · refine .inr (.inr (.inl ⟨g, rfl, Ne.symm h, ?_⟩))
        simp [pollWait, BarrierInner.poll, h, leave]

/-! ### Where the barrier is in its group -/

/-- The ids the futures have in the wait set. -/
def ids (s : BarrierRun) (f : FutId) : Option ℕ := (s.waits f).bind BarrierWait.id

/-- The futures that were told that they lead, in order. -/
def leaders (s : BarrierRun) : List FutId := (s.results.filter (·.2.isLeader)).map Prod.fst

structure Sound (s : BarrierRun) : Prop where
  pos : 1 ≤ s.n
  parks : s.inner.waiters.Parks s.ids s.awaiting
  count : s.inner.count = s.arrivals.length % s.n
  generation : s.inner.generation = s.arrivals.length / s.n
  nodup : s.arrivals.Nodup
  unpolled : ∀ f x, s.waits f = some x → x.arrivedAt = none → f ∉ s.arrivals ∧ x.id = none
  joined : ∀ f x g, s.waits f = some x → x.arrivedAt = some g →
    ∃ i : ℕ, s.arrivals[i]? = some f ∧ i / s.n = g
  /-- nobody of the current group was dropped -/
  present : ∀ f (i : ℕ), s.arrivals[i]? = some f → i / s.n = s.inner.generation → s.Participates f
  awaits : ∀ f, s.Participates f → ∃ w, s.awaiting f = some w
  entries : ∀ f x (k : ℕ) w, s.waits f = some x → x.id = some k →
    s.inner.waiters.map[k]? = some w → x.arrivedAt = some s.inner.generation
  resolved : ∀ f r, (f, r) ∈ s.results →
    ∃ i : ℕ, s.arrivals[i]? = some f ∧ i / s.n < s.inner.generation
  leads : ∀ g, s.leaders[g]? = s.arrivals[g * s.n + (s.n - 1)]?

theorem sound_new {n : ℕ} (hn : 1 ≤ n) : Sound (.new n) where
  pos := hn
  parks := .new
  count := (Nat.zero_mod n).symm
  generation := (Nat.zero_div n).symm
  nodup := .nil
  unpolled _ _ h := by cases h
  joined _ _ _ h := by cases h
  present _ _ h := by cases h
  awaits f h := by obtain ⟨x, hx, -⟩ := h; cases hx
  entries _ _ _ _ h := by cases h
  resolved _ _ h := by cases h
  leads g := by simp [leaders, new]

theorem ids_update (f : FutId) (y : Option BarrierWait) :
    (fun e => (Function.update s.waits f y e).bind BarrierWait.id) =
      Function.update s.ids f (y.bind BarrierWait.id) := by
  funext e
  by_cases h : e = f
  · subst h; simp
  · simp [h, ids]

/-- The next first poll completes the group. -/
theorem round_trip {L n : ℕ} (h : n ≤ L % n + 1) (hn : 1 ≤ n) :
    (L + 1) % n = 0 ∧ (L + 1) / n = L / n + 1 ∧ L / n * n + (n - 1) = L := by
  have hlt := Nat.mod_lt L hn
  have hL := Nat.div_add_mod L n
  have hsum : L + 1 = n * (L / n + 1) := by rw [Nat.mul_add]; omega
  refine ⟨?_, ?_, ?_⟩
  · rw [hsum]; exact Nat.mul_mod_right ..
  · rw [hsum]; exact Nat.mul_div_cancel_left _ hn
  · rw [Nat.mul_comm]; omega

/-- The next first poll does not. -/
theorem round_join {L n : ℕ} (h : L % n + 1 < n) :
    (L + 1) % n = L % n + 1 ∧ (L + 1) / n = L / n ∧ ∀ g, g * n + (n - 1) ≠ L := by
  have hL := Nat.div_add_mod L n
  have hsum : L + 1 = n * (L / n) + (L % n + 1) := by omega
  refine ⟨?_, ?_, fun g hg => ?_⟩
  · rw [hsum, Nat.mul_add_mod, Nat.mod_eq_of_lt h]
  · rw [hsum, Nat.mul_add_div (by omega), Nat.div_eq_of_lt h, Nat.add_zero]
  · have hm : L % n = n - 1 := by
      rw [← hg, Nat.mul_comm, Nat.mul_add_mod, Nat.mod_eq_of_lt (by omega)]
    omega

/-- There is one leader for every completed group. -/
theorem Sound.length_leaders (h : Sound s) : s.leaders.length = s.inner.generation := by
  have hL := Nat.div_add_mod s.arrivals.length s.n
  have hlt := Nat.mod_lt s.arrivals.length h.pos
  have beyond : ∀ g, s.leaders.length ≤ g ↔ s.arrivals.length ≤ g * s.n + (s.n - 1) := by
    intro g
    rw [← List.getElem?_eq_none_iff, h.leads, List.getElem?_eq_none_iff]
  rw [h.generation]
  refine Nat.le_antisymm ((beyond _).mpr ?_) ?_
  · rw [Nat.mul_comm]; omega
  · by_contra hn
    have hle := (beyond _).mp (Nat.le_refl s.leaders.length)
    have : (s.leaders.length + 1) * s.n ≤ s.arrivals.length / s.n * s.n :=
      Nat.mul_le_mul_right _ (by omega)
    rw [Nat.add_mul, Nat.mul_comm (s.arrivals.length / s.n)] at this
    omega

/-- The entries of the others are not touched when `f` parks. -/
theorem Sound.getElem?_of_park (h : Sound s) (hx : s.waits f = some x) {e : FutId}
    {y : BarrierWait} {k : ℕ} {v : WakerId} (hef : e ≠ f) (he : s.waits e = some y)
    (hk : y.id = some k) (hv : (s.inner.waiters.park x.id w).2.map[k]? = some v) :
    s.inner.waiters.map[k]? = some v := by
  rw [Waiters.getElem?_park] at hv
  split at hv
  · rename_i hpk
    have other := (h.parks.park_id f w).2.2 e hef
    rw [show s.ids f = x.id by simp [ids, hx], hpk] at other
    exact absurd (by simp [ids, he, hk]) other
  · exact hv

/-! A first poll: the future joins the current generation. -/

section Arrive

variable {e : FutId} {y : BarrierWait} {g : ℕ} {id : Option ℕ}

theorem Sound.nodup_arrive (h : Sound s) (hf : f ∉ s.arrivals) : (s.arrivals ++ [f]).Nodup := by
  refine List.nodup_append.mpr ⟨h.nodup, List.nodup_singleton f, fun a ha b hb e => ?_⟩
  exact hf (List.mem_singleton.mp hb ▸ e ▸ ha)

theorem Sound.joined_arrive (h : Sound s)
    (he : Function.update s.waits f (some ⟨some s.inner.generation, id⟩) e = some y)
    (hg : y.arrivedAt = some g) : ∃ i : ℕ, (s.arrivals ++ [f])[i]? = some e ∧ i / s.n = g := by
  rcases update_some_eq_some.mp he with ⟨rfl, rfl⟩ | ⟨-, he⟩
  · cases hg
    exact ⟨s.arrivals.length, getElem?_concat.mpr (.inr ⟨rfl, rfl⟩), h.generation.symm⟩
  · obtain ⟨i, hi, hg⟩ := h.joined e y g he hg
    exact ⟨i, getElem?_concat.mpr (.inl hi), hg⟩

theorem Sound.unpolled_arrive (h : Sound s)
    (he : Function.update s.waits f (some ⟨some s.inner.generation, id⟩) e = some y)
    (hg : y.arrivedAt = none) : e ∉ s.arrivals ++ [f] ∧ y.id = none := by
  rcases update_some_eq_some.mp he with ⟨rfl, rfl⟩ | ⟨hne, he⟩
  · cases hg
  · obtain ⟨hm, hid⟩ := h.unpolled e y he hg
    exact ⟨fun hm' => (List.mem_append.mp hm').elim hm fun hm' =>
      hne (List.mem_singleton.mp hm'), hid⟩

end Arrive

theorem Sound.trip (h : Sound s) (hx : s.waits f = some x) (hn : x.arrivedAt = none)
    (hc : s.n ≤ s.inner.count + 1) : Sound (s.trip f x) := by
  obtain ⟨hmod, hdiv, hlast⟩ := round_trip (h.count ▸ hc) h.pos
  obtain ⟨hf, hid⟩ := h.unpolled f x hx hn
  have hlen : (s.arrivals ++ [f]).length = s.arrivals.length + 1 := by simp
  have hids : (s.trip f x).ids = s.ids := by
    refine (ids_update f _).trans (Function.update_eq_self_iff.mpr ?_)
    simp [ids, hx]
  -- whoever has been polled is of a generation before the new one
  have before : ∀ {i : ℕ} {e}, (s.arrivals ++ [f])[i]? = some e →
      i / s.n < s.inner.generation + 1 := by
    intro i e hi
    have hlt : i < s.arrivals.length + 1 := hlen ▸ (List.getElem?_eq_some_iff.mp hi).1
    rw [h.generation]
    exact Nat.lt_succ_of_le (Nat.div_le_div_right (Nat.le_of_lt_succ hlt))
  have nobody : ∀ e, ¬ (s.trip f x).Participates e := by
    rintro e ⟨y, hy, hg⟩
    obtain ⟨i, hi, hgi⟩ := h.joined_arrive hy hg
    exact Nat.lt_irrefl _ (hgi ▸ before hi)
  refine ⟨h.pos, ?_, ?_, ?_, h.nodup_arrive hf, fun _ _ => h.unpolled_arrive,
    fun _ _ _ => h.joined_arrive, ?_, fun e he => absurd he (nobody e), ?_, ?_, ?_⟩
  · rw [hids]
    have woken := h.parks.wakeAll (List.Subset.refl _)
    refine ⟨woken.fresh, woken.apart, woken.owned, fun e v hv => woken.parked e v ?_⟩
    exact (update_none_eq_some.mp hv).2
  · show 0 = (s.arrivals ++ [f]).length % s.n
    rw [hlen, hmod]
  · show s.inner.generation + 1 = (s.arrivals ++ [f]).length / s.n
    rw [hlen, hdiv, h.generation]
  · intro e i hi hg
    exact absurd (before hi) (Nat.not_lt_of_le (Nat.le_of_eq hg.symm))
  · intro e y k v _ _ hv
    have empty : (s.trip f x).inner.waiters.map[k]? = none := Waiters.isEmpty_wakeAll k
    rw [empty] at hv
    cases hv
  · intro e r he
    rcases List.mem_append.mp he with he | he
    · obtain ⟨i, hi, hg⟩ := h.resolved e r he
      exact ⟨i, getElem?_concat.mpr (.inl hi), Nat.lt_succ_of_lt hg⟩
    · cases List.mem_singleton.mp he
      refine ⟨s.arrivals.length, getElem?_concat.mpr (.inr ⟨rfl, rfl⟩), ?_⟩
      exact Nat.lt_succ_of_le (Nat.le_of_eq h.generation.symm)
  · intro g
    have hleaders : (s.trip f x).leaders = s.leaders ++ [f] := by simp [leaders, BarrierRun.trip]
    have last : g = s.inner.generation ↔ g * s.n + (s.n - 1) = s.arrivals.length := by
      rw [h.generation]
      refine ⟨fun e => by rw [e, hlast], fun e => ?_⟩
      exact Nat.eq_of_mul_eq_mul_right h.pos (by omega)
    refine Option.ext fun e => ?_
    rw [hleaders, getElem?_concat, h.leads, h.length_leaders, last]
    exact getElem?_concat.symm

theorem Sound.join (h : Sound s) (hx : s.waits f = some x) (hn : x.arrivedAt = none)
    (hc : s.inner.count + 1 < s.n) : Sound (s.join f x w) := by
  obtain ⟨hmod, hdiv, hlast⟩ := round_join (h.count ▸ hc)
  obtain ⟨hf, hid⟩ := h.unpolled f x hx hn
  have hlen : (s.arrivals ++ [f]).length = s.arrivals.length + 1 := by simp
  have hxid : x.id = s.ids f := by simp [ids, hx]
  have participates : ∀ {e}, (s.join f x w).Participates e ↔ e = f ∨ s.Participates e := by
    intro e
    by_cases he : e = f
    · subst he
      exact ⟨fun _ => .inl rfl, fun _ => ⟨_, Function.update_self .., rfl⟩⟩
    · have same : (s.join f x w).waits e = s.waits e := Function.update_of_ne he ..
      simp only [Participates, same, he, false_or]
      rfl
  refine ⟨h.pos, ?_, ?_, ?_, h.nodup_arrive hf, fun _ _ => h.unpolled_arrive,
    fun _ _ _ => h.joined_arrive, ?_, ?_, ?_, ?_, ?_⟩
  · have hids : (s.join f x w).ids =
        Function.update s.ids f (some (s.inner.waiters.park (s.ids f) w).1) := by
      rw [← hxid]; exact ids_update f _
    rw [hids]
    have parked := (h.parks.woken []).park f w
    rw [← hxid] at parked ⊢
    exact parked
  · show s.inner.count + 1 = (s.arrivals ++ [f]).length % s.n
    rw [hlen, hmod, h.count]
  · show s.inner.generation = (s.arrivals ++ [f]).length / s.n
    rw [hlen, hdiv, h.generation]
  · intro e i hi hg
    rcases getElem?_concat.mp hi with hi | ⟨-, rfl⟩
    · exact participates.mpr (.inr (h.present e i hi hg))
    · exact participates.mpr (.inl rfl)
  · intro e he
    by_cases hef : e = f
    · subst hef
      exact ⟨w, Function.update_self ..⟩
    · obtain ⟨v, hv⟩ := h.awaits e ((participates.mp he).resolve_left hef)
      refine ⟨v, (Function.update_of_ne hef ..).trans ?_⟩
      exact stillAwaiting_eq_some.mpr ⟨hv, List.not_mem_nil⟩
  · intro e y k v he hk hv
    rcases update_some_eq_some.mp he with ⟨rfl, rfl⟩ | ⟨hef, he⟩
    · rfl
    · exact h.entries e y k v he hk (h.getElem?_of_park hx hef he hk hv)
  · intro e r he
    obtain ⟨i, hi, hg⟩ := h.resolved e r he
    exact ⟨i, getElem?_concat.mpr (.inl hi), hg⟩
  · intro g
    refine Option.ext fun e => ?_
    have hnew : (s.join f x w).arrivals[g * s.n + (s.n - 1)]? = some e ↔
        s.arrivals[g * s.n + (s.n - 1)]? = some e := by
      refine getElem?_concat.trans ⟨fun hi => ?_, .inl⟩
      exact hi.resolve_right fun hi => hlast g hi.1
    exact (h.leads g ▸ Iff.rfl : s.leaders[g]? = some e ↔ _).trans hnew.symm

/-! A later poll: the future keeps the generation it joined. -/

section Later

variable {e : FutId} {y : BarrierWait} {g j : ℕ} {id : Option ℕ}

/-- It joined the generation it had joined before, whatever its id is. -/
theorem waits_later (hx : s.waits f = some x)
    (he : Function.update s.waits f (some ⟨x.arrivedAt, id⟩) e = some y) :
    ∃ z, s.waits e = some z ∧ z.arrivedAt = y.arrivedAt ∧ (e ≠ f → z = y) := by
  rcases update_some_eq_some.mp he with ⟨rfl, rfl⟩ | ⟨-, he⟩
  · exact ⟨x, hx, rfl, fun h => absurd rfl h⟩
  · exact ⟨y, he, rfl, fun _ => rfl⟩

theorem participates_later (hx : s.waits f = some x) {s' : BarrierRun}
    (hs : s'.waits = Function.update s.waits f (some ⟨x.arrivedAt, id⟩))
    (hg : s'.inner.generation = s.inner.generation) : s'.Participates e ↔ s.Participates e := by
  by_cases he : e = f
  · subst he
    simp [Participates, hs, hg, hx]
  · simp [Participates, hs, hg, he]

theorem Sound.unpolled_later (h : Sound s) (hj : x.arrivedAt = some j)
    (he : Function.update s.waits f (some ⟨x.arrivedAt, id⟩) e = some y)
    (hg : y.arrivedAt = none) : e ∉ s.arrivals ∧ y.id = none := by
  rcases update_some_eq_some.mp he with ⟨rfl, rfl⟩ | ⟨-, he⟩
  · rw [hj] at hg; cases hg
  · exact h.unpolled e y he hg

theorem Sound.joined_later (h : Sound s) (hx : s.waits f = some x)
    (he : Function.update s.waits f (some ⟨x.arrivedAt, id⟩) e = some y)
    (hg : y.arrivedAt = some g) : ∃ i : ℕ, s.arrivals[i]? = some e ∧ i / s.n = g := by
  obtain ⟨z, hz, ha, -⟩ := waits_later hx he
  exact h.joined e z g hz (ha.trans hg)

end Later

theorem Sound.leave (h : Sound s) {g : ℕ} (hx : s.waits f = some x) (hj : x.arrivedAt = some g)
    (hg : g ≠ s.inner.generation) : Sound (s.leave f x) := by
  have hxid : x.id = s.ids f := by simp [ids, hx]
  have participates : ∀ {e}, (s.leave f x).Participates e ↔ s.Participates e :=
    participates_later hx rfl rfl
  refine ⟨h.pos, ?_, h.count, h.generation, h.nodup, fun _ _ => h.unpolled_later hj,
    fun _ _ _ => h.joined_later hx, fun e i hi hi' => participates.mpr (h.present e i hi hi'),
    ?_, ?_, ?_, ?_⟩
  · have hids : (s.leave f x).ids = Function.update s.ids f none := ids_update f _
    rw [hids]
    have left := (h.parks.woken []).unpark f
    rw [← hxid] at left
    exact left
  · intro e he
    have hef : e ≠ f := by
      rintro rfl
      obtain ⟨z, hz, ha⟩ := participates.mp he
      obtain rfl : x = z := Option.some.inj (hx.symm.trans hz)
      exact hg (Option.some.inj (hj.symm.trans ha))
    obtain ⟨v, hv⟩ := h.awaits e (participates.mp he)
    refine ⟨v, (Function.update_of_ne hef ..).trans ?_⟩
    exact stillAwaiting_eq_some.mpr ⟨hv, List.not_mem_nil⟩
  · intro e y k v he hk hv
    rcases update_some_eq_some.mp he with ⟨rfl, rfl⟩ | ⟨-, he⟩
    · cases hk
    · refine h.entries e y k v he hk ?_
      have hv : (s.inner.waiters.unpark x.id).map[k]? = some v := hv
      rw [Waiters.getElem?_unpark] at hv
      split at hv
      · cases hv
      · exact hv
  · intro e r he
    rcases List.mem_append.mp he with he | he
    · exact h.resolved e r he
    · cases List.mem_singleton.mp he
      obtain ⟨i, hi, rfl⟩ := h.joined f x g hx hj
      have hle : i / s.n ≤ s.inner.generation := by
        rw [h.generation]
        exact Nat.div_le_div_right (Nat.le_of_lt (List.getElem?_eq_some_iff.mp hi).1)
      exact ⟨i, hi, Nat.lt_of_le_of_ne hle hg⟩
  · intro k
    have hleaders : (s.leave f x).leaders = s.leaders := by simp [leaders, BarrierRun.leave]
    rw [hleaders]
    exact h.leads k

theorem Sound.stay (h : Sound s) (hx : s.waits f = some x)
    (hj : x.arrivedAt = some s.inner.generation) : Sound (s.stay f x w) := by
  have hxid : x.id = s.ids f := by simp [ids, hx]
  have participates : ∀ {e}, (s.stay f x w).Participates e ↔ s.Participates e :=
    participates_later hx rfl rfl
  refine ⟨h.pos, ?_, h.count, h.generation, h.nodup, fun _ _ => h.unpolled_later hj,
    fun _ _ _ => h.joined_later hx, fun e i hi hi' => participates.mpr (h.present e i hi hi'),
    ?_, ?_, h.resolved, h.leads⟩
  · have hids : (s.stay f x w).ids =
        Function.update s.ids f (some (s.inner.waiters.park (s.ids f) w).1) := by
      rw [← hxid]; exact ids_update f _
    rw [hids]
    have parked := (h.parks.woken []).park f w
    rw [← hxid] at parked ⊢
    exact parked
  · intro e he
    by_cases hef : e = f
    · subst hef
      exact ⟨w, Function.update_self ..⟩
    · obtain ⟨v, hv⟩ := h.awaits e (participates.mp he)
      refine ⟨v, (Function.update_of_ne hef ..).trans ?_⟩
      exact stillAwaiting_eq_some.mpr ⟨hv, List.not_mem_nil⟩
  · intro e y k v he hk hv
    rcases update_some_eq_some.mp he with ⟨rfl, rfl⟩ | ⟨hef, he⟩
    · exact hj
    · exact h.entries e y k v he hk (h.getElem?_of_park hx hef he hk hv)

theorem Sound.wait (h : Sound s) (hf : s.waits f = none) (hn : f ∉ s.arrivals) :
    Sound (s.next (.wait f)) := by
  have hids : (s.next (.wait f)).ids = s.ids := by
    refine (ids_update f _).trans (Function.update_eq_self_iff.mpr ?_)
    simp [ids, hf]
  have participates : ∀ {e}, (s.next (.wait f)).Participates e ↔ s.Participates e := by
    intro e
    by_cases he : e = f
    · subst he
      simp [Participates, next, waits] at hf ⊢
      simp [hf]
    · have same : (s.next (.wait f)).waits e = s.waits e := Function.update_of_ne he ..
      simp only [Participates, same]
      rfl
  refine ⟨h.pos, hids ▸ h.parks, h.count, h.generation, h.nodup, ?_, ?_,
    fun e i hi hg => participates.mpr (h.present e i hi hg),
    fun e he => h.awaits e (participates.mp he), ?_, h.resolved, h.leads⟩
  · intro e y he hg
    rcases update_some_eq_some.mp he with ⟨rfl, rfl⟩ | ⟨-, he⟩
    · exact ⟨hn, rfl⟩
    · exact h.unpolled e y he hg
  · intro e y g he hg
    rcases update_some_eq_some.mp he with ⟨rfl, rfl⟩ | ⟨-, he⟩
    · cases hg
    · exact h.joined e y g he hg
  · intro e y k v he hk hv
    rcases update_some_eq_some.mp he with ⟨rfl, rfl⟩ | ⟨-, he⟩
    · cases hk
    · exact h.entries e y k v he hk hv

/-- A future that is not counted in the current generation is dropped. -/
theorem Sound.drop (h : Sound s) (hf : ¬ s.Participates f) : Sound (s.next (.drop f)) := by
  have participates : ∀ {e}, (s.next (.drop f)).Participates e ↔ s.Participates e := by
    intro e
    by_cases he : e = f
    · subst he
      refine ⟨fun ⟨x, hx, _⟩ => ?_, fun he => absurd he hf⟩
      rw [show (s.next (.drop e)).waits e = none from Function.update_self ..] at hx
      cases hx
    · have same : (s.next (.drop f)).waits e = s.waits e := Function.update_of_ne he ..
      simp only [Participates, same]
      rfl
  refine ⟨h.pos, ?_, h.count, h.generation, h.nodup, ?_, ?_,
    fun e i hi hg => participates.mpr (h.present e i hi hg), ?_, ?_, h.resolved, h.leads⟩
  · have hids : (s.next (.drop f)).ids = Function.update s.ids f none := ids_update f none
    rw [hids]
    refine h.parks.forget fun k hk => ?_
    -- an entry would make it a participant
    obtain ⟨x, hx, hk⟩ := Option.bind_eq_some_iff.mp hk
    by_contra hne
    obtain ⟨v, hv⟩ := Option.ne_none_iff_exists'.mp hne
    exact hf ⟨x, hx, h.entries f x k v hx hk hv⟩
  · exact fun e y he => h.unpolled e y (update_none_eq_some.mp he).2
  · exact fun e y g he => h.joined e y g (update_none_eq_some.mp he).2
  · intro e he
    have hef : e ≠ f := fun hef => hf (hef ▸ participates.mp he)
    obtain ⟨v, hv⟩ := h.awaits e (participates.mp he)
    exact ⟨v, (Function.update_of_ne hef ..).trans hv⟩
  · exact fun e y k v he => h.entries e y k v (update_none_eq_some.mp he).2

theorem Sound.next (h : Sound s) {a : BarrierAct} (ha : s.Enabled a) (hd : ¬ s.Abandons a) :
    Sound (s.next a) := by
  cases a with
  | wait f => exact h.wait ha.1 ha.2
  | drop f => exact h.drop hd
  | poll f w =>
      obtain ⟨x, hx⟩ := Option.isSome_iff_exists.mp ha
      have hnext : s.next (.poll f w) = s.pollWait f x w := by simp only [BarrierRun.next, hx]
      rw [hnext]
      rcases pollWait_cases s f x w with ⟨hn, hc, he⟩ | ⟨hn, hc, he⟩ | ⟨g, hj, hg, he⟩ | ⟨hj, he⟩
      · rw [he]; exact h.trip hx hn hc
      · rw [he]; exact h.join hx hn hc
      · rw [he]; exact h.leave hx hj hg
      · rw [he]; exact h.stay hx hj

end BarrierRun

theorem reachable_barrierSound {s : BarrierRun}
    (h : barrierMachine.ReachableBy (fun s a => ¬ s.Abandons a) s) : s.Sound := by
  refine h.invariant ?_ fun s a _ hs hd ha => hs.next ha hd
  rintro s ⟨n, hn, rfl⟩
  exact BarrierRun.sound_new hn

/-! ### Rounds -/

namespace BarrierRun

variable {s : BarrierRun} {f : FutId}

/-- The first poll of `f` was one of the group `g`. -/
def InGroup (s : BarrierRun) (f : FutId) (g : ℕ) : Prop :=
  ∃ i : ℕ, s.arrivals[i]? = some f ∧ i / s.n = g

theorem Sound.nodup_leaders (h : Sound s) : s.leaders.Nodup := by
  rw [List.nodup_iff_getElem?_ne_getElem?]
  intro i j hij hj heq
  rw [h.leads, h.leads] at heq
  have hlt : j * s.n + (s.n - 1) < s.arrivals.length := by
    by_contra hn
    have := h.leads j
    rw [List.getElem?_eq_none (Nat.le_of_not_lt hn)] at this
    exact absurd hj (Nat.not_lt_of_le (List.getElem?_eq_none_iff.mp this))
  have hmul : i * s.n < j * s.n := Nat.mul_lt_mul_of_pos_right hij h.pos
  exact List.nodup_iff_getElem?_ne_getElem?.mp h.nodup _ _ (by omega) hlt heq

theorem count_leaders (s : BarrierRun) (f : FutId) :
    s.results.count (f, ⟨true⟩) = s.leaders.count f := by
  unfold leaders
  induction s.results with
  | nil => rfl
  | cons a l ih =>
      obtain ⟨e, ⟨b⟩⟩ := a
      cases b <;> simp [List.count_cons, ih]

/-- The last of a completed group leads it, and nobody else of the group does. -/
theorem Sound.leader (h : Sound s) {g : ℕ} (hg : g < s.inner.generation) :
    ∃ f, s.arrivals[g * s.n + (s.n - 1)]? = some f ∧ s.results.count (f, ⟨true⟩) = 1 ∧
      ∀ e, (e, ⟨true⟩) ∈ s.results → s.InGroup e g → e = f := by
  have hlt : g < s.leaders.length := h.length_leaders ▸ hg
  have hget : s.leaders[g]? = some s.leaders[g] := List.getElem?_eq_getElem hlt
  refine ⟨s.leaders[g], h.leads g ▸ hget, ?_, ?_⟩
  · rw [count_leaders]
    exact List.count_eq_one_of_mem h.nodup_leaders (List.getElem_mem hlt)
  · rintro e he ⟨i, hi, hig⟩
    have hmem : e ∈ s.leaders := by
      rw [← List.count_pos_iff, ← count_leaders]
      exact List.count_pos_iff.mpr he
    obtain ⟨j, hj⟩ := List.mem_iff_getElem?.mp hmem
    -- the first poll of `e` was the last of the group `j`
    have hj' := hj
    rw [h.leads] at hj'
    have hij : i = j * s.n + (s.n - 1) :=
      (List.getElem?_inj (List.getElem?_eq_some_iff.mp hi).1 h.nodup).mp (hi.trans hj'.symm)
    have hjg : j = g := by
      have hpos := h.pos
      rw [← hig, hij, Nat.mul_comm, Nat.mul_add_div hpos, Nat.div_eq_of_lt (by omega), Nat.add_zero]
    subst hjg
    exact Option.some.inj (hj.symm.trans hget)

end BarrierRun

/-- **The barrier goes round.**  In every run that drops no future counted in the current
generation, with `k` first polls so far:

* `count` is `k % n` and `generation` is `k / n`;
* a future that has resolved is of a group whose `n` first polls have all happened;
* of every completed group the future whose first poll completed it was told once that it leads,
  and no other one of the group was;
* every waker parked is of a live future of the current generation, whose group is incomplete;
* a poll that completes the group invokes the waker of every future of the group. -/
theorem barrier_rounds {s : BarrierRun}
    (h : barrierMachine.ReachableBy (fun s a => ¬ s.Abandons a) s) :
    (s.inner.count = s.arrivals.length % s.n ∧ s.inner.generation = s.arrivals.length / s.n) ∧
    (∀ f r, (f, r) ∈ s.results → ∃ g, s.InGroup f g ∧ (g + 1) * s.n ≤ s.arrivals.length) ∧
    (∀ g < s.inner.generation, ∃ f, s.arrivals[g * s.n + (s.n - 1)]? = some f ∧
      s.results.count (f, ⟨true⟩) = 1 ∧ ∀ e, (e, ⟨true⟩) ∈ s.results → s.InGroup e g → e = f) ∧
    (∀ (k : ℕ) w, s.inner.waiters.map[k]? = some w → ∃ f x, s.waits f = some x ∧ x.id = some k ∧
      x.arrivedAt = some s.inner.generation ∧ s.InGroup f s.inner.generation) ∧
    (∀ e x v, s.waits e = some x → (s.inner.poll s.n x v).1 = .ready ⟨true⟩ →
      ∀ f, s.Participates f →
        ∃ w, s.awaiting f = some w ∧ w ∈ (s.inner.poll s.n x v).2.2.1) := by
  have hs := reachable_barrierSound h
  refine ⟨⟨hs.count, hs.generation⟩, fun f r hr => ?_, fun g hg => hs.leader hg, ?_, ?_⟩
  · obtain ⟨i, hi, hg⟩ := hs.resolved f r hr
    refine ⟨i / s.n, ⟨i, hi, rfl⟩, (Nat.mul_le_mul_right _ hg).trans ?_⟩
    rw [hs.generation]
    exact Nat.div_mul_le_self ..
  · intro k w hk
    obtain ⟨f, hf⟩ := hs.parks.owned k w hk
    obtain ⟨x, hx, hid⟩ := Option.bind_eq_some_iff.mp hf
    have hg := hs.entries f x k w hx hid hk
    exact ⟨f, x, hx, hid, hg, hs.joined f x _ hx hg⟩
  · intro e x v hx hr f hf
    obtain ⟨w, hw⟩ := hs.awaits f hf
    have woken := s.inner.woken_poll s.n x v
    rw [if_pos (BarrierInner.trips_of_leader hr)] at woken
    exact ⟨w, hw, woken ▸ hs.parks.mem_wakeAll hw⟩

/-- A barrier for two: 0 and 1 make the first group; 2 begins the second one before 0 is polled
again, and is polled a second time by another waker. -/
def roundsRun : List BarrierAct :=
  [.wait 0, .poll 0 5, .wait 1, .poll 1 6, .wait 2, .poll 2 7, .poll 0 5, .poll 2 8, .wait 3]

theorem roundsRun_rounds :
    let s := barrierMachine.runList (.new 2) roundsRun
    s.inner.count = 1 ∧ s.inner.generation = 1 ∧
    s.results = [(1, ⟨true⟩), (0, ⟨false⟩)] ∧
    ∃ w, s.awaiting 2 = some w ∧ w ∈ (s.inner.poll s.n ⟨none, none⟩ 9).2.2.1 := by
  have reached : barrierMachine.ReachableBy (fun s a => ¬ s.Abandons a)
      (barrierMachine.runList (.new 2) roundsRun) :=
    .of_follows ⟨2, by decide, rfl⟩ (by decide +kernel)
  refine ⟨by decide +kernel, by decide +kernel, by decide +kernel, ?_⟩
  exact (barrier_rounds reached).2.2.2.2 3 ⟨none, none⟩ 9 (by decide +kernel) (by decide +kernel) 2
    (by decide +kernel)

/-! ### Cancellation -/

namespace BarrierRun

variable {s : BarrierRun} {f : FutId}

/-- The live futures counted in the current generation. -/
def participants (s : BarrierRun) : Set FutId := {f | s.Participates f}

/-- The barrier counts its live participants and nobody else. -/
structure Accounted (s : BarrierRun) : Prop where
  count : s.participants.encard = s.inner.count
  entries : ∀ (k : ℕ) w, s.inner.waiters.map[k]? = some w →
    ∃ f x, s.waits f = some x ∧ x.id = some k
  /-- with the one that arrives, `n` live futures wait when the group is completed -/
  trips : ∀ e x v, s.waits e = some x → (s.inner.poll s.n x v).1 = .ready ⟨true⟩ →
    s.n ≤ (insert e s.participants).encard

/-- The first polls of the current group. -/
def group (s : BarrierRun) : List FutId := s.arrivals.drop (s.inner.generation * s.n)

theorem Sound.mem_group (h : Sound s) : f ∈ s.group ↔ s.Participates f := by
  have hL := Nat.div_add_mod s.arrivals.length s.n
  have hlt := Nat.mod_lt s.arrivals.length h.pos
  rw [← h.generation, Nat.mul_comm] at hL
  constructor
  · intro hf
    obtain ⟨j, hj⟩ := List.mem_iff_getElem?.mp hf
    rw [group, List.getElem?_drop] at hj
    refine h.present f _ hj ?_
    have hjlt := (List.getElem?_eq_some_iff.mp hj).1
    rw [Nat.mul_comm, Nat.mul_add_div h.pos, Nat.div_eq_of_lt (by omega), Nat.add_zero]
  · rintro ⟨x, hx, hg⟩
    obtain ⟨i, hi, hig⟩ := h.joined f x _ hx hg
    have hle : s.inner.generation * s.n ≤ i := hig ▸ Nat.div_mul_le_self i s.n
    refine List.mem_iff_getElem?.mpr ⟨i - s.inner.generation * s.n, ?_⟩
    rw [group, List.getElem?_drop, Nat.add_sub_cancel' hle, hi]

theorem Sound.encard_participants (h : Sound s) : s.participants.encard = s.inner.count := by
  have hset : s.participants = ↑s.group.toFinset := by
    ext f
    simp [participants, h.mem_group]
  have hlen : s.group.length = s.inner.count := by
    have hL := Nat.div_add_mod s.arrivals.length s.n
    rw [group, List.length_drop, h.count, h.generation, Nat.mul_comm]
    omega
  have nodup : s.group.Nodup := h.nodup.sublist (List.drop_sublist ..)
  rw [hset, Set.encard_coe_eq_coe_finsetCard, List.toFinset_card_of_nodup nodup, hlen]

theorem Sound.accounted (h : Sound s) : s.Accounted where
  count := h.encard_participants
  entries k w hk := by
    obtain ⟨f, hf⟩ := h.parks.owned k w hk
    obtain ⟨x, hx, hid⟩ := Option.bind_eq_some_iff.mp hf
    exact ⟨f, x, hx, hid⟩
  trips e x v hx hr := by
    obtain ⟨hn, hc⟩ := BarrierInner.trips_of_leader hr
    have he : e ∉ s.participants := by
      rintro ⟨y, hy, hg⟩
      obtain rfl : x = y := Option.some.inj (hx.symm.trans hy)
      rw [hn] at hg
      cases hg
    rw [Set.encard_insert_of_notMem he, h.encard_participants]
    exact_mod_cast hc

/-- A participant that is dropped stays counted. -/
theorem Sound.not_accounted_drop (h : Sound s) (hf : s.Participates f) :
    ¬ (s.next (.drop f)).Accounted := by
  intro ha
  have rest : (s.next (.drop f)).participants = s.participants \ {f} := by
    ext e
    by_cases he : e = f
    · subst he
      simp [participants, Participates, BarrierRun.next, waits]
    · have same : (s.next (.drop f)).waits e = s.waits e := Function.update_of_ne he ..
      simp only [participants, Participates, same, Set.mem_ofPred_eq, Set.mem_sdiff,
        Set.mem_singleton_iff, he, not_false_eq_true, and_true]
      rfl
  have hcount := Set.encard_sdiff_singleton_add_one (show f ∈ s.participants from hf)
  rw [← rest, ha.count, h.encard_participants] at hcount
  have hcount : s.inner.count + 1 = s.inner.count := by exact_mod_cast hcount
  omega

end BarrierRun

/-- **Cancellation.**  As long as no future counted in the current generation has been dropped,
the barrier counts exactly its live participants, every waker parked is of a live future, and the
barrier trips only when `n` live futures wait.  Dropping such a future breaks this. -/
theorem accounted_until_abandoned {s : BarrierRun}
    (h : barrierMachine.ReachableBy (fun s a => ¬ s.Abandons a) s) :
    s.Accounted ∧ ∀ a, s.Enabled a → ((s.next a).Accounted ↔ ¬ s.Abandons a) := by
  have hs := reachable_barrierSound h
  refine ⟨hs.accounted, fun a ha => ⟨fun hn hd => ?_, fun hd => (hs.next ha hd).accounted⟩⟩
  cases a with
  | wait f => exact hd
  | poll f w => exact hd
  | drop f => exact hs.not_accounted_drop hd hn

theorem roundsRun_accounted :
    let s := barrierMachine.runList (.new 2) roundsRun
    s.participants.encard = 1 ∧ (s.next (.drop 0)).Accounted ∧ ¬ (s.next (.drop 2)).Accounted := by
  have reached : barrierMachine.ReachableBy (fun s a => ¬ s.Abandons a)
      (barrierMachine.runList (.new 2) roundsRun) :=
    .of_follows ⟨2, by decide, rfl⟩ (by decide +kernel)
  obtain ⟨accounted, next⟩ := accounted_until_abandoned reached
  have count : (barrierMachine.runList (.new 2) roundsRun).inner.count = 1 := by decide +kernel
  refine ⟨by rw [accounted.count, count]; rfl, ?_, ?_⟩
  · exact (next (.drop 0) (by decide +kernel)).mpr (by decide +kernel)
  · exact fun h => (next (.drop 2) (by decide +kernel)).mp h (by decide +kernel)

/-- A barrier for two: 0 is polled once and dropped. -/
def abandonedRun : List BarrierAct := [.wait 0, .poll 0 5]

/-- The barrier does not count its live participants: after the drop `count` is 1, and the next
future to arrive trips the barrier alone. -/
theorem abandonedRun_not_accounted :
    ¬ (∀ s, barrierMachine.Reachable s → s.Accounted) ∧
    let s := barrierMachine.runList (.new 2) (abandonedRun ++ [.drop 0, .wait 1, .poll 1 6])
    s.results = [(1, ⟨true⟩)] ∧ s.arrivals = [0, 1] := by
  refine ⟨fun h => ?_, by decide +kernel⟩
  have init : barrierMachine.Init (.new 2) := ⟨2, by decide, rfl⟩
  have sound : (barrierMachine.runList (.new 2) abandonedRun).Sound :=
    reachable_barrierSound (.of_follows init (by decide +kernel))
  have follows : barrierMachine.Follows (fun _ _ => True) (.new 2) (abandonedRun ++ [.drop 0]) := by
    decide +kernel
  refine sound.not_accounted_drop (f := 0) (by decide +kernel) (h _ ?_)
  exact (Machine.ReachableBy.of_init init).run follows.run

end RustAsync
