import RustBase.Task.RepeatingTimer

/-!
# Task — when `stop` is immediate

`RepeatingTimer::stop` clears `active` and returns.  It does not wait for a firing that has upgraded
its `Weak` before, nor for a call of `start` on another thread, which holds its `TimerInner` to its
end: these let a callback begin after `stop` has returned.

* `Pending`: what can still call the callback of a `TimerInner` that is not active any more.
* **`stop_immediate_iff`**: when a `stop` returns, no callback of what it stopped begins afterwards,
  in any continuation, if and only if nothing is pending for it.
* `lateRun_begins`: the callback begins after `stop` has returned.
-/

namespace RustTask
open Support

namespace RepeatingTimer

variable {s s' : RepeatingTimer} {i j : InnerId} {a : Action}

/-- A firing is on its way to the callback, or a call of `start` on another thread still holds the
`TimerInner` while its tick is to be posted or to fire. -/
def Pending (s : RepeatingTimer) (i : InnerId) : Prop :=
  s.worker.willCall = some i ∨
    ∃ p, s.starts i = some p ∧ (p ≠ .finish ∨ i ∈ s.ticks ∨ s.worker = .fired i)

/-- Whatever happens next, no callback of the given ones begins. -/
def NeverBegins (s : RepeatingTimer) (l : List InnerId) : Prop :=
  ∀ s', repeatMachine.Run (fun _ _ => True) s s' → ∀ i ∈ l,
    s'.log.count (.began i) = s.log.count (.began i)

/-! ### Nothing pending -/

/-- A call of `stop` is about to return, having stopped `l`. -/
def Returning (s : RepeatingTimer) (l : List InnerId) : Prop := l ∈ s.stops ∨ s.nested = .stop l

/-- Has been active, and is not any more. -/
def Retired (s : RepeatingTimer) (i : InnerId) : Prop := i ∈ s.activated ∧ s.active ≠ some i

theorem activated_next (h : i ∈ s.activated) : i ∈ (s.next a).activated := by
  cases a with
  | start own => cases own <;> exact h
  | activate j =>
      rw [show (s.next (.activate j)).activated = _ from (setStart_same j _).activated]
      exact .tail _ h
  | startUpgrade j | startReturns j =>
      rw [next, (setStart_same j _).activated]
      exact h
  | startPost j ok =>
      rw [next, (setStart_same j _).activated, (postTick_frame j ok).2.2.2.2.1]
      exact h
  | stop own => cases own <;> exact h
  | post j ok =>
      rw [show (s.next (.post j ok)).activated = _ from (postTick_frame j ok).2.2.2.2.1]
      exact h
  | _ => exact h

theorem Retired.next (hc : Chain s) (h : s.Retired i) (ha : s.Enabled a) :
    (s.next a).Retired i := by
  refine ⟨activated_next h.1, active_next h.2 ?_⟩
  rintro rfl
  exact hc.activated i h.1 ha

/-- What a call of `stop` stopped. -/
def StopsRetired (s : RepeatingTimer) : Prop := ∀ l, s.Returning l → ∀ i ∈ l, s.Retired i

/-- A call of `stop` that is about to return was so before, or is the one that the step makes. -/
theorem returning_next {l : List InnerId} (h : (s.next a).Returning l) :
    s.Returning l ∨ (l = s.activated ∧ (s.next a).active = none) := by
  -- the calls of `stop` are as before
  have same : ∀ {x : RepeatingTimer}, x.stops = s.stops →
      (x.nested = .stop l → s.nested = .stop l) → x.Returning l → s.Returning l :=
    fun h₁ h₂ => Or.imp (fun hx => h₁ ▸ hx) h₂
  have moved : ∀ {x : RepeatingTimer} {j o}, x.nested = s.nested →
      (x.setStart j o).nested = .stop l → s.nested = .stop l := by
    intro x j o hx hn
    rw [← hx]
    unfold setStart at hn
    split at hn
    · split at hn
      · cases o <;> cases hn
      · rename_i he _; rw [he] at hn; cases hn
    · exact hn
  cases a with
  | start own =>
      cases own with
      | true => exact .inl (same (x := s.next (.start true)) rfl (fun hn => by cases hn) h)
      | false => exact .inl (same rfl id h)
  | activate j =>
      have kept : (s.next (.activate j)).nested = .stop l → s.nested = .stop l :=
        moved (x := { s with active := some j, activated := j :: s.activated }) rfl
      exact .inl (same (x := s.next (.activate j)) (setStart_same j _).stops kept h)
  | startUpgrade j | startReturns j => exact .inl (same (setStart_same j _).stops (moved rfl) h)
  | startPost j ok =>
      obtain ⟨-, hn, -, -, -, -, hs⟩ := postTick_frame (s := s) j ok
      exact .inl (same ((setStart_same j _).stops.trans hs) (moved hn) h)
  | stop own =>
      cases own with
      | true =>
          rcases h with h | h
          · exact .inl (.inl h)
          · cases h; exact .inr ⟨rfl, rfl⟩
      | false =>
          rcases h with h | h
          · rcases List.mem_cons.mp h with rfl | h
            · exact .inr ⟨rfl, rfl⟩
            · exact .inl (.inl h)
          · exact .inl (.inr h)
  | stopReturns l' => exact .inl (h.imp List.mem_of_mem_erase id)
  | ownStopReturns l' => exact .inl (h.imp id fun hn => by cases hn)
  | post j ok =>
      obtain ⟨-, hn, -, -, -, -, hs⟩ := postTick_frame (s := s) j ok
      exact .inl (same hs (fun hx => hn ▸ hx) h)
  | dropTimer | fire | upgrade | scheduleUpgrade | dropInner | call | callbackReturns =>
      exact .inl h

theorem stopsRetired_next (hc : Chain s) (h : s.StopsRetired) (ha : s.Enabled a) :
    (s.next a).StopsRetired := by
  intro l hl i hi
  rcases returning_next hl with hl | ⟨rfl, hn⟩
  · exact (h l hl i hi).next hc ha
  · exact ⟨activated_next hi, by rw [hn]; nofun⟩

end RepeatingTimer

theorem reachable_stopsRetired {s : RepeatingTimer} (h : repeatMachine.Reachable s) :
    s.StopsRetired := by
  refine h.invariant (I := RepeatingTimer.StopsRetired) ?_ fun s a hr hi _ ha =>
    RepeatingTimer.stopsRetired_next (reachable_chain hr) hi ha
  rintro s rfl l (hl | hl)
  · cases hl
  · cases hl

namespace RepeatingTimer

variable {s s' : RepeatingTimer} {i j : InnerId} {a : Action}

theorem ticks_next (ha : s.Enabled a) (h : i ∈ (s.next a).ticks) :
    i ∈ s.ticks ∨ s.startPhase i = some .post ∨ s.worker = .posting i := by
  have posted : ∀ {j ok}, i ∈ (s.postTick j ok).ticks → i ∈ s.ticks ∨ j = i := by
    intro j ok hm
    cases ok with
    | true => exact (List.mem_cons.mp hm).symm.imp id Eq.symm
    | false => exact .inl hm
  cases a with
  | start own => cases own <;> exact .inl h
  | activate j =>
      rw [show (s.next (.activate j)).ticks = _ from (setStart_same j _).ticks] at h
      exact .inl h
  | startUpgrade j | startReturns j =>
      rw [next, (setStart_same j _).ticks] at h
      exact .inl h
  | startPost j ok =>
      rw [next, (setStart_same j _).ticks] at h
      rcases posted h with h | rfl
      · exact .inl h
      · exact .inr (.inl ha)
  | stop own => cases own <;> exact .inl h
  | fire j => exact .inl (List.mem_of_mem_erase h)
  | post j ok =>
      rcases posted h with h | rfl
      · exact .inl h
      · exact .inr (.inr ha)
  | _ => exact .inl h

theorem fired_next (ha : s.Enabled a) (h : (s.next a).worker = .fired i) :
    s.worker = .fired i ∨ i ∈ s.ticks := by
  cases a with
  | start own => cases own <;> exact .inl h
  | activate j =>
      rw [show (s.next (.activate j)).worker = _ from (setStart_same j _).worker] at h
      exact .inl h
  | startUpgrade j | startReturns j =>
      rw [next, (setStart_same j _).worker] at h
      exact .inl h
  | startPost j ok =>
      rw [next, (setStart_same j _).worker, (postTick_frame j ok).2.2.2.1] at h
      exact .inl h
  | stop own => cases own <;> exact .inl h
  | stopReturns | ownStopReturns | dropTimer => exact .inl h
  | fire j => cases h; exact .inr ha.2
  | upgrade j | scheduleUpgrade j =>
      simp only [next] at h
      split at h <;> cases h
  | post | dropInner | call | callbackReturns => cases h

theorem starts_setStart {x : RepeatingTimer} {o : Option StartPhase} :
    ((x.setStart j o).starts i = x.starts i) ∨
      (i = j ∧ (∀ p, x.nested ≠ .start i p) ∧ (x.setStart j o).starts i = o) := by
  unfold setStart
  by_cases hij : i = j
  · subst hij
    split
    · rename_i k q hn
      by_cases hk : k = i
      · rw [if_pos hk]; exact .inl rfl
      · rw [if_neg hk]
        refine .inr ⟨rfl, fun p hp => ?_, Function.update_self ..⟩
        rw [hn] at hp
        cases hp
        exact hk rfl
    · rename_i hn
      exact .inr ⟨rfl, hn i, Function.update_self ..⟩
  · refine .inl ?_
    split
    · split
      · rfl
      · exact Function.update_of_ne hij ..
    · exact Function.update_of_ne hij ..

/-- For a call of another thread, `startPhase` is where it is. -/
theorem startPhase_of_starts {p : StartPhase} (hc : Chain s) (h : s.starts i = some p) :
    s.startPhase i = some p := by
  unfold startPhase
  split
  · rename_i k q hn
    have : k ≠ i := by
      rintro rfl
      rw [hc.apart k q hn] at h
      cases h
    rw [if_neg this]
    exact h
  · exact h

/-- Has been active, is not any more, and nothing is pending for it. -/
structure Calm (s : RepeatingTimer) (i : InnerId) : Prop where
  retired : s.Retired i
  quiet : ¬ s.Pending i

theorem Calm.not_alive (hc : Chain s) (h : s.Calm i) (hw : s.worker = .fired i) : ¬ s.Alive i := by
  rintro (hx | hx | hx)
  · exact h.retired.2 hx
  · have nested := hc.nested_none (by rw [hw]; rfl)
    simp only [startPhase, nested] at hx
    obtain ⟨p, hp⟩ := Option.isSome_iff_exists.mp hx
    exact h.quiet (.inr ⟨p, hp, .inr (.inr hw)⟩)
  · rw [hw] at hx; cases hx

/-- A call of another thread that has not come to its end has still its tick to post. -/
theorem Calm.finish (h : s.Calm i) {p : StartPhase} (hp : s.starts i = some p) :
    p = .finish ∧ i ∉ s.ticks ∧ s.worker ≠ .fired i := by
  refine ⟨?_, fun hm => h.quiet (.inr ⟨p, hp, .inr (.inl hm)⟩),
    fun hw => h.quiet (.inr ⟨p, hp, .inr (.inr hw)⟩)⟩
  by_contra hne
  exact h.quiet (.inr ⟨p, hp, .inl hne⟩)

/-- No step moves the call of `start` of another thread, if it has come to its end, but its own
return. -/
theorem Calm.starts_next (hc : Chain s) (h : s.Calm i) (ha : s.Enabled a) {p : StartPhase}
    (hp : (s.next a).starts i = some p) : s.starts i = some p := by
  -- a step of a call of `start` that is at `q`
  have moved : ∀ {x : RepeatingTimer} {j o q}, x.starts = s.starts → x.nested = s.nested →
      s.startPhase j = some q → q ≠ .finish ∨ o = none → (x.setStart j o).starts i = some p →
      s.starts i = some p := by
    intro x j o q hst hne hj hq hx
    rcases starts_setStart (x := x) (i := i) (j := j) (o := o) with same | ⟨rfl, nested, now⟩
    · rwa [same, hst] at hx
    · have here : s.starts i = some q := by
        rw [hne] at nested
        unfold startPhase at hj
        split at hj
        · rename_i k r hn
          by_cases hk : k = i
          · subst hk; exact absurd hn (nested r)
          · rwa [if_neg hk] at hj
        · exact hj
      rcases hq with hq | rfl
      · exact absurd (h.finish here).1 hq
      · rw [now] at hx; cases hx
  cases a with
  | start own =>
      cases own with
      | true => exact hp
      | false =>
          have hi : i ≠ s.nextInner := by
            rintro rfl
            exact (hc.fresh _ (Nat.le_refl _)).2.2 h.retired.1
          rwa [show (s.next (.start false)).starts i = s.starts i from
            Function.update_of_ne hi ..] at hp
  | activate j =>
      exact moved (x := { s with active := some j, activated := j :: s.activated }) (q := .activate)
        rfl rfl ha (.inl nofun) hp
  | startUpgrade j => exact moved (q := .upgrade) rfl rfl ha (.inl nofun) hp
  | startPost j ok =>
      obtain ⟨h₁, h₂, -⟩ := postTick_frame (s := s) j ok
      exact moved (q := .post) h₁ h₂ ha (.inl nofun) hp
  | startReturns j => exact moved (q := .finish) rfl rfl ha (.inr rfl) hp
  | stop own => cases own <;> exact hp
  | post j ok =>
      rwa [show (s.next (.post j ok)).starts = _ from (postTick_frame j ok).1] at hp
  | _ => exact hp

theorem calm_next (hc : Chain s) (h : s.Calm i) (ha : s.Enabled a) : (s.next a).Calm i := by
  refine ⟨h.retired.next hc ha, ?_⟩
  rintro (hw | ⟨p, hp, hx⟩)
  · refine willCall_next ha (fun hw => h.quiet (.inl hw)) ?_ hw
    rintro rfl
    exact h.not_alive hc ha
  · -- the call had come to its end before the step, and no tick was there
    have before := h.starts_next hc ha hp
    obtain ⟨rfl, noTick, notFired⟩ := h.finish before
    rcases hx with hx | hx | hx
    · exact hx rfl
    · rcases ticks_next ha hx with hx | hx | hx
      · exact noTick hx
      · rw [startPhase_of_starts hc before] at hx; cases hx
      · exact h.quiet (.inl (by rw [hx]; rfl))
    · rcases fired_next ha hx with hx | hx
      · exact notFired hx
      · exact noTick hx

theorem Calm.began (h : s.Calm i) (ha : s.Enabled a) : TickEvent.began i ∉ events a := by
  intro hm
  unfold events at hm
  split at hm <;> simp at hm
  subst hm
  exact h.quiet (.inl (by rw [show s.worker = _ from ha]; rfl))

theorem neverBegins_of_calm (hc : Chain s) {l : List InnerId} (h : ∀ i ∈ l, s.Calm i) :
    s.NeverBegins l := by
  intro s' hr i hi
  have inv : s'.Chain ∧ s'.Calm i ∧ s'.log.count (.began i) = s.log.count (.began i) := by
    refine hr.keeps (I := fun x => x.Chain ∧ x.Calm i ∧
      x.log.count (.began i) = s.log.count (.began i)) (fun x a hx ha => ?_) ⟨hc, h i hi, rfl⟩
    obtain ⟨h₁, h₂, h₃⟩ := hx
    refine ⟨chain_next h₁ ha, calm_next h₁ h₂ ha, ?_⟩
    rw [show (repeatMachine.next x a).log = _ from log_next a, List.count_append,
      List.count_eq_zero.mpr (h₂.began ha)]
    exact h₃
  exact inv.2.2

/-! ### Something pending -/

/-- In some continuation a callback of `i` begins. -/
def MayBegin (s : RepeatingTimer) (i : InnerId) : Prop :=
  ∃ s', repeatMachine.Run (fun _ _ => True) s s' ∧
    s.log.count (.began i) < s'.log.count (.began i)

theorem MayBegin.step (ha : s.Enabled a) (h : (s.next a).MayBegin i) : s.MayBegin i := by
  obtain ⟨s', hr, hlt⟩ := h
  have first : repeatMachine.Run (fun _ _ => True) s (s.next a) :=
    .more (M := repeatMachine) .refl trivial ha
  refine ⟨s', first.trans hr, Nat.lt_of_le_of_lt ?_ hlt⟩
  rw [log_next, List.count_append]
  exact Nat.le_add_right _ _

/-- A firing that has upgraded its `Weak` goes on to its callback. -/
theorem mayBegin_of_willCall (h : s.worker.willCall = some i) : s.MayBegin i := by
  have calling : ∀ {x : RepeatingTimer}, x.worker = .calling i → x.MayBegin i := fun {x} hx => by
    have ha : repeatMachine.Enabled x (.call i) := hx
    refine ⟨_, .more .refl trivial ha, ?_⟩
    rw [show (repeatMachine.next x (.call i)).log = _ from log_next _, List.count_append]
    simp [events]
  have dropping : ∀ {x : RepeatingTimer}, x.worker = .dropping i → x.MayBegin i := fun {x} hx =>
    .step (a := .dropInner i) hx (calling rfl)
  have posting : ∀ {x : RepeatingTimer}, x.worker = .posting i → x.MayBegin i := fun {x} hx =>
    .step (a := .post i true) hx (dropping rfl)
  cases hw : s.worker with
  | upgraded k =>
      rw [hw] at h
      cases h
      have alive : s.Alive i := .inr (.inr (by rw [hw]; rfl))
      refine .step (a := .scheduleUpgrade i) hw (posting ?_)
      simp only [next, if_pos alive]
  | posting k => rw [hw] at h; cases h; exact posting hw
  | dropping k => rw [hw] at h; cases h; exact dropping hw
  | calling k => rw [hw] at h; cases h; exact calling hw
  | idle | fired k | inCallback k => rw [hw] at h; cases h

/-- How far the worker is from being idle. -/
def rank (s : RepeatingTimer) : ℕ :=
  (match s.nested with
    | .none => 0
    | .stop _ | .start _ .finish => 1
    | .start _ .post => 2
    | .start _ .upgrade => 3
    | .start _ .activate => 4) +
  5 * match s.worker with
    | .idle => 0
    | .inCallback _ => 1
    | .calling _ => 2
    | .dropping _ => 3
    | .posting _ => 4
    | .upgraded _ => 5
    | .fired _ => 6

/-- The worker goes on towards being idle, and nothing that other threads do is touched. -/
theorem exists_step_rank (hw : s.worker ≠ .idle) :
    ∃ a, s.Enabled a ∧ (s.next a).rank < s.rank ∧ (s.next a).starts = s.starts ∧
      ∀ i ∈ s.ticks, i ∈ (s.next a).ticks := by
  cases hx : s.worker with
  | idle => exact absurd hx hw
  | fired k =>
      refine ⟨.upgrade k, hx, ?_, rfl, fun _ => id⟩
      by_cases alive : s.Alive k <;> simp [rank, next, hx, alive]
  | upgraded k =>
      refine ⟨.scheduleUpgrade k, hx, ?_, rfl, fun _ => id⟩
      by_cases alive : s.Alive k <;> simp [rank, next, hx, alive]
  | posting k =>
      refine ⟨.post k false, hx, ?_, rfl, fun _ => id⟩
      simp [rank, next, postTick, hx]
  | dropping k =>
      refine ⟨.dropInner k, hx, ?_, rfl, fun _ => id⟩
      simp [rank, next, hx]
  | calling k =>
      refine ⟨.call k, hx, ?_, rfl, fun _ => id⟩
      simp [rank, next, emit, hx]
  | inCallback k =>
      cases hn : s.nested with
      | none =>
          refine ⟨.callbackReturns k, ⟨hx, hn⟩, ?_, rfl, fun _ => id⟩
          simp [rank, next, emit, hx, hn]
      | stop l =>
          refine ⟨.ownStopReturns l, hn, ?_, rfl, fun _ => id⟩
          simp [rank, next, hx, hn]
      | start j p =>
          have phase : s.startPhase j = some p := by simp [startPhase, hn]
          cases p with
          | activate =>
              refine ⟨.activate j, phase, ?_, ?_, fun i hi => ?_⟩ <;>
                simp_all [rank, next, setStart]
          | upgrade =>
              have alive : s.Alive j := .inr (.inl (by rw [phase]; rfl))
              refine ⟨.startUpgrade j, phase, ?_, ?_, fun i hi => ?_⟩ <;>
                simp_all [rank, next, setStart]
          | post =>
              refine ⟨.startPost j false, phase, ?_, ?_, fun i hi => ?_⟩ <;>
                simp_all [rank, next, setStart, postTick]
          | finish =>
              refine ⟨.startReturns j, phase, ?_, ?_, fun i hi => ?_⟩ <;>
                simp_all [rank, next, setStart]

theorem mayBegin_of_fired (hs : (s.starts i).isSome = true) (hw : s.worker = .fired i) :
    s.MayBegin i := by
  have alive : s.Alive i := by
    refine .inr (.inl ?_)
    unfold startPhase
    split
    · split
      · rfl
      · exact hs
    · exact hs
  refine .step (a := .upgrade i) hw (mayBegin_of_willCall ?_)
  simp only [next, if_pos alive]
  rfl

/-- While a call of another thread holds the `TimerInner`, its tick fires once the worker is
free. -/
theorem mayBegin_of_tick (hc : Chain s) (hs : (s.starts i).isSome = true) (ht : i ∈ s.ticks) :
    s.MayBegin i := by
  induction hr : s.rank using Nat.strongRecOn generalizing s with
  | _ n ih =>
      by_cases hw : s.worker = .idle
      · have ha : s.Enabled (.fire i) := ⟨hw, ht⟩
        exact .step ha (mayBegin_of_fired hs rfl)
      · obtain ⟨a, ha, hlt, hst, hti⟩ := exists_step_rank hw
        refine .step ha (ih _ (hr ▸ hlt) (chain_next hc ha) ?_ (hti i ht) rfl)
        rw [hst]
        exact hs

theorem starts_setStart_self {x : RepeatingTimer} {o : Option StartPhase} {p : StartPhase}
    (ha : x.NestedApart) (hs : x.starts i = some p) : (x.setStart i o).starts i = o := by
  unfold setStart
  split
  · rename_i k q hn
    have : k ≠ i := by
      rintro rfl
      rw [ha k q hn] at hs
      cases hs
    rw [if_neg this]
    exact Function.update_self ..
  · exact Function.update_self ..

/-- A call of another thread goes on to post its tick, which fires before the call returns. -/
theorem mayBegin_of_start (hc : Chain s) {p : StartPhase} (hs : s.starts i = some p)
    (hp : p ≠ .finish) : s.MayBegin i := by
  have post : ∀ {x : RepeatingTimer}, Chain x → x.starts i = some .post → x.MayBegin i := by
    intro x hx hs
    have ha : x.Enabled (.startPost i true) := startPhase_of_starts hx hs
    refine .step ha (mayBegin_of_tick (chain_next hx ha) ?_ ?_)
    · rw [next, starts_setStart_self (x := x.postTick i true) (p := .post) hx.apart hs]
      rfl
    · rw [next, (setStart_same i _).ticks]
      exact .head _
  have upgrade : ∀ {x : RepeatingTimer}, Chain x → x.starts i = some .upgrade → x.MayBegin i := by
    intro x hx hs
    have phase := startPhase_of_starts hx hs
    have alive : x.Alive i := .inr (.inl (by rw [phase]; rfl))
    have ha : x.Enabled (.startUpgrade i) := phase
    refine .step ha (post (chain_next hx ha) ?_)
    rw [next, starts_setStart_self hx.apart hs, if_pos alive]
  cases p with
  | activate =>
      have ha : s.Enabled (.activate i) := startPhase_of_starts hc hs
      refine .step ha (upgrade (chain_next hc ha) ?_)
      exact starts_setStart_self
        (x := { s with active := some i, activated := i :: s.activated }) hc.apart hs
  | upgrade => exact upgrade hc hs
  | post => exact post hc hs
  | finish => exact absurd rfl hp

theorem mayBegin_of_pending (hc : Chain s) (h : s.Pending i) : s.MayBegin i := by
  rcases h with h | ⟨p, hp, hx⟩
  · exact mayBegin_of_willCall h
  · have held : (s.starts i).isSome = true := by rw [hp]; rfl
    rcases hx with hx | hx | hx
    · exact mayBegin_of_start hc hp hx
    · exact mayBegin_of_tick hc held hx
    · exact mayBegin_of_fired held hx

end RepeatingTimer

/-- **When `stop` is immediate.**  A call of `stop` has cleared `active` and is about to return: no
callback of what it stopped begins from here on, in any continuation, if and only if no firing is
past its upgrade with the callback still to call, and no call of `start` on another thread still
holds what it made while its tick is to be posted or to fire. -/
theorem stop_immediate_iff {s : RepeatingTimer} (h : repeatMachine.Reachable s)
    {l : List InnerId} (hl : s.Returning l) :
    s.NeverBegins l ↔ ∀ i ∈ l, ¬ s.Pending i := by
  have hc := reachable_chain h
  refine ⟨fun hn i hi hp => ?_, fun hq => ?_⟩
  · obtain ⟨s', hr, hlt⟩ := RepeatingTimer.mayBegin_of_pending hc hp
    exact Nat.ne_of_gt hlt (hn s' hr i hi)
  · exact RepeatingTimer.neverBegins_of_calm hc fun i hi =>
      ⟨reachable_stopsRetired h l hl i hi, hq i hi⟩

/-- `stop` lands while a tick is queued and nothing runs: it is immediate. -/
theorem quietStop_immediate :
    let s := repeatMachine.runList .new (begunRun 0 ++ [.stop false])
    s.ticks = [0] ∧ s.NeverBegins [0] := by
  have follows : repeatMachine.Follows (fun _ _ => True) .new (begunRun 0 ++ [.stop false]) := by
    decide +kernel
  refine ⟨by decide +kernel, (stop_immediate_iff (.of_follows rfl follows) ?_).mpr ?_⟩
  · exact .inl (by decide +kernel)
  · intro i hi
    rw [List.mem_singleton.mp hi]
    rintro (hw | ⟨p, hp, -⟩)
    · revert hw; decide +kernel
    · have : (repeatMachine.runList .new (begunRun 0 ++ [.stop false])).starts 0 = none := by
        decide +kernel
      rw [this] at hp
      cases hp

/-- The firing has upgraded its `Weak` when `stop` is called on another thread; after `stop` has
returned the callback begins. -/
theorem lateRun_begins :
    let s := repeatMachine.runList .new (begunRun 0 ++ (firedRun 0).take 2 ++ [.stop false])
    let returned := repeatMachine.next s (.stopReturns [0])
    let s' := repeatMachine.runList returned ((firedRun 0).drop 2 ++ [.call 0])
    repeatMachine.Reachable s ∧ s.Returning [0] ∧
      repeatMachine.Run (fun _ _ => True) returned s' ∧ returned.stops = [] ∧
      returned.active = none ∧ returned.log.count (.began 0) = 0 ∧
      s'.log.count (.began 0) = 1 ∧ ¬ s.NeverBegins [0] := by
  have follows : repeatMachine.Follows (fun _ _ => True) .new
      (begunRun 0 ++ (firedRun 0).take 2 ++ [.stop false]) := by decide +kernel
  have after : repeatMachine.Follows (fun _ _ => True) (repeatMachine.next
      (repeatMachine.runList .new (begunRun 0 ++ (firedRun 0).take 2 ++ [.stop false]))
      (.stopReturns [0])) ((firedRun 0).drop 2 ++ [.call 0]) := by decide +kernel
  have enabled : repeatMachine.Enabled (repeatMachine.runList .new
      (begunRun 0 ++ (firedRun 0).take 2 ++ [.stop false])) (.stopReturns [0]) := by decide +kernel
  refine ⟨.of_follows rfl follows, .inl enabled, after.run, by decide +kernel, by decide +kernel,
    by decide +kernel, by decide +kernel, fun h => ?_⟩
  have same := h _ ((Machine.Run.more .refl trivial enabled).trans after.run) 0 (.head _)
  revert same
  decide +kernel

end RustTask
