import RustBase.Net.SocketLife

/-!
# Net — deadlines hit their own operation

The timeout of an operation carries the generation that the operation claimed.  When it fires it may
invoke the callback of that operation and no other; and if that callback is still stored, it invokes
it with `TimedOut` (`TimesOut`).

An operation claims a generation even when it completes at once and leaves the slot as it is.  Over
an operation that is pending, such a call leaves the generation and the slot of two different
operations.  With a timeout of its own, that timeout then hits the callback that is pending; and the
timeout of the operation that is pending, if it has one, is taken for an obsolete one.
`on_time_until_overtaken` says that deadlines are kept until such a step, and that each of them
breaks one.
-/

namespace RustNet
open Support RustIo

/-! ### What a timeout may do -/

/-- From `x` to `x'` the timeout of the operation `cb` fires, whose slot is `k`. -/
structure TimesOut (cb : CallbackId) (k : OpKind) (x x' : Ops) : Prop where
  own : x'.results = x.results ∨ x'.results = x.results ++ [(cb, .failed .timedOut)]
  hit : x.slot k = some cb →
    x'.results = x.results ++ [(cb, .failed .timedOut)] ∧ x'.slot k = none

/-- The generation is that of the callback in the slot. -/
structure Punctual (cb : CallbackId) (x : Ops) (t : Timeout) : Prop where
  own : x.gen t.kind = t.gen → ∀ cb', x.slot t.kind.op = some cb' → cb' = cb
  hit : x.slot t.kind.op = some cb → x.gen t.kind = t.gen

theorem timesOut_fire_iff {cb : CallbackId} {x : Ops} {t : Timeout} :
    TimesOut cb t.kind.op x (x.fire t) ↔ Punctual cb x t := by
  rcases x.fire_cases t with ⟨h, hn⟩ | ⟨cb', hg, hs, h⟩
  · rw [h]
    constructor
    · intro ht
      refine ⟨fun hg cb' hs => ?_, fun hs => ?_⟩
      · rcases hn with hn | hn
        · exact absurd hg hn
        · rw [hn] at hs; cases hs
      · exact absurd (ht.hit hs).1 (by simp)
    · intro hp
      refine ⟨.inl rfl, fun hs => ?_⟩
      rcases hn with hn | hn
      · exact absurd (hp.hit hs) hn
      · rw [hn] at hs; cases hs
  · rw [h]
    constructor
    · intro ht
      have same : cb' = cb := by
        rcases ht.own with ht | ht <;> simp [Ops.resolve] at ht
        exact ht
      subst same
      exact ⟨fun _ cb'' hs' => Option.some.inj (hs'.symm.trans hs), fun _ => hg⟩
    · intro hp
      obtain rfl : cb' = cb := hp.own hg cb' hs
      exact ⟨.inr rfl, fun _ => ⟨rfl, Function.update_self ..⟩⟩

namespace OpsLog

/-- Every timeout that is scheduled will do what it may. -/
def OnTime (x : OpsLog) : Prop :=
  ∀ t ∈ x.ops.timeouts, ∃ cb, x.owner t.kind t.gen = some cb ∧
    TimesOut cb t.kind.op x.ops (x.ops.fire t)

/-- An operation with generations completes at once while one of its kind is pending, and one of the
two has a timeout. -/
def Overtakes (x : OpsLog) : OpsAct → Prop
  | .start k false timed _ => ∃ t ∈ k.timeout?, ∃ cb ∈ x.ops.slot k,
      timed = true ∨ ∃ u ∈ x.ops.timeouts, u.kind = t ∧ x.owner t u.gen = some cb
  | _ => False

instance (x : OpsLog) : ∀ a, Decidable (x.Overtakes a)
  | .start _ false _ _ =>
      inferInstanceAs (Decidable (∃ t ∈ _, ∃ cb ∈ _, _ ∨ ∃ u ∈ _, _ ∧ _))
  | .start _ true _ _ | .cancel _ | .fire _ | .call _ _ | .idle =>
      inferInstanceAs (Decidable False)

end OpsLog

/-! ### Generations and callbacks are given out in order -/

section Start

variable {x : OpsLog} {registers pends timed : Bool} {o : Outcome} {k : OpKind} {t : TimeoutKind}

theorem slot_start_of_ne {j : OpKind} (hj : j ≠ k) :
    (x.ops.start k pends timed o).slot j = x.ops.slot j := by
  cases pends with
  | false => rfl
  | true => exact Function.update_of_ne hj ..

theorem slot_start_self :
    (x.ops.start k pends timed o).slot k =
      if pends then some x.ops.nextCallback else x.ops.slot k := by
  cases pends with
  | false => rfl
  | true => exact Function.update_self ..

theorem gen_start_of_ne {u : TimeoutKind} (hu : u.op ≠ k) :
    (x.ops.start k pends timed o).gen u = x.ops.gen u := by
  cases hk : k.timeout? with
  | none => simp only [Ops.start, hk]
  | some t =>
      have hne : u ≠ t := fun e => hu (e ▸ (OpKind.timeout?_eq_some.mp hk).symm)
      simp only [Ops.start, hk]
      exact Function.update_of_ne hne ..

theorem gen_start_self (hk : k.timeout? = some t) :
    (x.ops.start k pends timed o).gen t = x.ops.gen t + 1 := by
  simp only [Ops.start, hk]
  exact Function.update_self ..

theorem mem_timeouts_start {u : Timeout} :
    u ∈ (x.ops.start k pends timed o).timeouts ↔
      u ∈ x.ops.timeouts ∨ timed = true ∧ k.timeout? = some u.kind ∧
        u.gen = x.ops.gen u.kind + 1 := by
  obtain ⟨kind, gen⟩ := u
  cases hk : k.timeout? with
  | none => simp [Ops.start, hk]
  | some t =>
      cases timed with
      | false => simp [Ops.start, hk]
      | true =>
          simp only [Ops.start, hk, if_true, List.mem_cons, Timeout.mk.injEq, Option.some.injEq,
            true_and]
          constructor
          · rintro (⟨rfl, rfl⟩ | h)
            · exact .inr ⟨rfl, rfl⟩
            · exact .inl h
          · rintro (h | ⟨rfl, h⟩)
            · exact .inr h
            · exact .inl ⟨rfl, h⟩

theorem owner_start {u : TimeoutKind} {g : ℕ} {cb : CallbackId} :
    (x.next (.start k pends timed o) registers).owner u g = some cb ↔
      (k.timeout? = some u ∧ g = x.ops.gen u + 1 ∧ x.ops.nextCallback = cb) ∨
      (¬ (k.timeout? = some u ∧ g = x.ops.gen u + 1) ∧ x.owner u g = some cb) := by
  cases hk : k.timeout? with
  | none => simp [OpsLog.next, OpsLog.claims, hk]
  | some t =>
      simp only [OpsLog.next, OpsLog.claims, hk, Option.some.injEq]
      by_cases hu : u = t
      · subst hu
        rw [Function.update_self, update_some_eq_some]
        tauto
      · rw [Function.update_of_ne hu]
        have : t ≠ u := fun e => hu e.symm
        tauto

end Start

namespace OpsLog

variable {x : OpsLog} {a : OpsAct} {registers : Bool}

structure Bounded (x : OpsLog) : Prop where
  timeouts : ∀ t ∈ x.ops.timeouts, t.gen ≤ x.ops.gen t.kind
  owner : ∀ t g cb, x.owner t g = some cb → cb < x.ops.nextCallback
  slot : ∀ k cb, x.ops.slot k = some cb → cb < x.ops.nextCallback

theorem owner_next (ha : a.starts = false) : (x.next a registers).owner = x.owner := by
  cases a with
  | start k pends timed o => cases ha
  | cancel ks | fire t | call d o | idle => rfl

theorem Bounded.settle (h : x.Bounded) (ha : a.starts = false) : (x.next a registers).Bounded := by
  have hs := x.ops.settles_next ha
  have hn : (x.next a registers).ops.nextCallback = x.ops.nextCallback := hs.nextCallback
  refine ⟨fun t ht => ?_, fun t g cb ho => ?_, fun k cb hk => ?_⟩
  · exact Nat.le_trans (h.timeouts t (hs.timeouts ht)) (Nat.le_of_eq (congrFun hs.gen t.kind).symm)
  · rw [hn]; rw [owner_next ha] at ho; exact h.owner t g cb ho
  · rw [hn]; exact h.slot k cb (hs.slot k cb hk)

theorem Bounded.start (h : x.Bounded) {k : OpKind} {pends timed : Bool} {o : Outcome} :
    (x.next (.start k pends timed o) registers).Bounded := by
  refine ⟨fun u hu => ?_, fun t g cb ho => ?_, fun j cb hj => ?_⟩
  · change u.gen ≤ (x.ops.start k pends timed o).gen u.kind
    rcases mem_timeouts_start.mp hu with hu | ⟨-, hk, hg⟩
    · have hle := h.timeouts u hu
      by_cases hk : u.kind.op = k
      · rw [gen_start_self (OpKind.timeout?_eq_some.mpr hk.symm)]; omega
      · rw [gen_start_of_ne hk]; exact hle
    · rw [gen_start_self hk]; exact Nat.le_of_eq hg
  · change cb < x.ops.nextCallback + 1
    rcases owner_start.mp ho with ⟨-, -, rfl⟩ | ⟨-, ho⟩
    · exact Nat.lt_succ_self _
    · exact Nat.lt_succ_of_lt (h.owner t g cb ho)
  · change cb < x.ops.nextCallback + 1
    change (x.ops.start k pends timed o).slot j = some cb at hj
    by_cases hk : j = k
    · subst hk
      rw [slot_start_self] at hj
      cases pends with
      | false => exact Nat.lt_succ_of_lt (h.slot j cb hj)
      | true => cases hj; exact Nat.lt_succ_self _
    · rw [slot_start_of_ne hk] at hj
      exact Nat.lt_succ_of_lt (h.slot j cb hj)

theorem Bounded.next (h : x.Bounded) : (x.next a registers).Bounded := by
  cases a with
  | start k pends timed o => exact h.start
  | cancel ks | fire t | call d o | idle => exact h.settle rfl

/-! ### A step -/

theorem onTime_iff : x.OnTime ↔ ∀ t ∈ x.ops.timeouts, ∃ cb, x.owner t.kind t.gen = some cb ∧
    Punctual cb x.ops t := by
  simp only [OnTime, timesOut_fire_iff]

theorem OnTime.settle (h : x.OnTime) (ha : a.starts = false) : (x.next a registers).OnTime := by
  have hs := x.ops.settles_next ha
  rw [onTime_iff] at h ⊢
  intro t ht
  obtain ⟨cb, ho, hp⟩ := h t (hs.timeouts ht)
  have hg : (x.next a registers).ops.gen t.kind = x.ops.gen t.kind := congrFun hs.gen t.kind
  refine ⟨cb, by rw [owner_next ha]; exact ho, fun hg' cb' hc => ?_, fun hc => ?_⟩
  · exact hp.own (hg.symm.trans hg') cb' (hs.slot _ _ hc)
  · exact hg.trans (hp.hit (hs.slot _ _ hc))

/-- An operation that waits claims the slot and the generation; the timeouts before it are obsolete,
and their callbacks are not in the slot. -/
theorem OnTime.start (h : x.OnTime) (hb : x.Bounded) {k : OpKind} {pends timed : Bool} {o : Outcome}
    (hn : ¬ x.Overtakes (.start k pends timed o)) :
    (x.next (.start k pends timed o) registers).OnTime := by
  rw [onTime_iff] at h ⊢
  intro u hm
  rcases mem_timeouts_start.mp hm with hu | ⟨htimed, hk, hg⟩
  · obtain ⟨cb, ho, hp⟩ := h u hu
    have hle := hb.timeouts u hu
    have ho' : (x.next (.start k pends timed o) registers).owner u.kind u.gen = some cb :=
      owner_start.mpr (.inr ⟨fun h => by omega, ho⟩)
    refine ⟨cb, ho', ?_⟩
    by_cases hk : u.kind.op = k
    · have hk' : k.timeout? = some u.kind := OpKind.timeout?_eq_some.mpr hk.symm
      have later : (x.ops.start k pends timed o).gen u.kind ≠ u.gen := by
        rw [gen_start_self hk']; omega
      refine ⟨fun hg => absurd hg later, fun hs => ?_⟩
      change (x.ops.start k pends timed o).slot u.kind.op = some cb at hs
      rw [hk, slot_start_self] at hs
      cases pends with
      | true =>
          cases hs
          exact absurd (hb.owner _ _ _ ho) (Nat.lt_irrefl _)
      | false => exact absurd ⟨u.kind, hk', cb, hs, .inr ⟨u, hu, rfl, ho⟩⟩ hn
    · refine ⟨fun hg cb' hs => hp.own ?_ cb' ?_, fun hs => ?_⟩
      · exact (gen_start_of_ne hk).symm.trans hg
      · exact (slot_start_of_ne hk).symm.trans hs
      · exact (gen_start_of_ne hk).trans (hp.hit ((slot_start_of_ne hk).symm.trans hs))
  · have hop := OpKind.timeout?_eq_some.mp hk
    refine ⟨x.ops.nextCallback, owner_start.mpr (.inl ⟨hk, hg, rfl⟩), fun _ cb' hs => ?_,
      fun _ => ?_⟩
    · change (x.ops.start k pends timed o).slot u.kind.op = some cb' at hs
      rw [← hop, slot_start_self] at hs
      cases pends with
      | true => exact (Option.some.inj hs).symm
      | false => exact absurd ⟨u.kind, hk, cb', hs, .inl htimed⟩ hn
    · exact (gen_start_self hk).trans hg.symm

theorem Bounded.not_overtakes (hb : x.Bounded) {k : OpKind} {pends timed : Bool} {o : Outcome}
    (h' : (x.next (.start k pends timed o) registers).OnTime) :
    ¬ x.Overtakes (.start k pends timed o) := by
  intro hn
  rw [onTime_iff] at h'
  cases pends with
  | true => exact hn
  | false =>
      obtain ⟨t, hk, cb, hs, hn⟩ := hn
      obtain rfl := OpKind.timeout?_eq_some.mp hk
      rcases hn with rfl | ⟨u, hu, rfl, ho⟩
      · -- its own timeout hits `cb`
        obtain ⟨cb', ho', hp⟩ := h' ⟨t, x.ops.gen t + 1⟩
          (mem_timeouts_start.mpr (.inr ⟨rfl, hk, rfl⟩))
        have own := hp.own (gen_start_self hk) cb hs
        rcases owner_start.mp ho' with ⟨-, -, rfl⟩ | ⟨hne, -⟩
        · exact absurd (hb.slot _ _ hs) (own ▸ Nat.lt_irrefl _)
        · exact hne ⟨hk, rfl⟩
      · -- the timeout of `cb` is obsolete
        obtain ⟨cb', ho', hp⟩ := h' u (mem_timeouts_start.mpr (.inl hu))
        have hle := hb.timeouts u hu
        rcases owner_start.mp ho' with ⟨-, hg, -⟩ | ⟨-, ho''⟩
        · omega
        · obtain rfl : cb = cb' := Option.some.inj (ho.symm.trans ho'')
          have hg := (gen_start_self hk).symm.trans (hp.hit hs)
          omega

/-- What a step does to a log whose deadlines are kept. -/
theorem OnTime.next_iff (h : x.OnTime) (hb : x.Bounded) :
    (x.next a registers).OnTime ↔ ¬ x.Overtakes a := by
  cases a with
  | start k pends timed o => exact ⟨hb.not_overtakes, h.start hb⟩
  | cancel ks | fire t | call d o | idle => exact iff_of_true (h.settle rfl) id

end OpsLog

/-! ### The socket -/

namespace SocketLife

variable {s : SocketLife}

/-- Every timeout that is scheduled times out its own operation, if any. -/
def OnTime (s : SocketLife) : Prop :=
  ∀ t ∈ s.state.timeouts, ∃ cb, s.owner t.kind t.gen = some cb ∧
    TimesOut cb t.kind.op s.state.ops (s.state.next (.fire t)).ops

/-- The step starts an operation that completes at once, while one of its kind is pending, and one
of the two has a timeout. -/
def Overtakes (s : SocketLife) (a : LifeAct) : Prop := s.log.Overtakes (s.act a)

instance (s : SocketLife) (a : LifeAct) : Decidable (s.Overtakes a) :=
  inferInstanceAs (Decidable (s.log.Overtakes _))

theorem onTime_log_iff : s.OnTime ↔ s.log.OnTime := by
  simp only [OnTime, SocketState.ops_next]
  exact Iff.rfl

theorem init_onTime (h : lifeMachine.Init s) : s.log.OnTime ∧ s.log.Bounded := by
  obtain ⟨id, table, rfl | ⟨fd, rfl⟩⟩ := h <;>
    exact ⟨nofun, nofun, nofun, fun k cb hk => by cases k <;> cases hk⟩

theorem onTime_next_iff (h : s.log.OnTime) (hb : s.log.Bounded) (a : LifeAct) :
    (s.next a).OnTime ↔ ¬ s.Overtakes a := by
  rw [onTime_log_iff, log_next]
  exact h.next_iff hb

/-- **Deadlines.**  As long as no operation completes at once over a pending one of its kind, where
one of the two has a timeout, every timeout times out its own operation; and a step that does this
leaves a timeout that does not. -/
theorem on_time_until_overtaken (h : lifeMachine.ReachableBy (fun s a => ¬ s.Overtakes a) s) :
    s.OnTime ∧ ∀ a, s.Enabled a → ((s.next a).OnTime ↔ ¬ s.Overtakes a) := by
  have kept : s.log.OnTime ∧ s.log.Bounded := by
    refine h.invariant (I := fun s => s.log.OnTime ∧ s.log.Bounded) (fun s hi => init_onTime hi) ?_
    rintro s a - ⟨ht, hb⟩ hn -
    refine ⟨onTime_log_iff.mp ((onTime_next_iff ht hb a).mpr hn), ?_⟩
    have hl : (lifeMachine.next s a).log = s.log.next (s.act a) a.registers := s.log_next a
    rw [hl]
    exact hb.next
  exact ⟨onTime_log_iff.mpr kept.1, fun a _ => onTime_next_iff kept.1 kept.2 a⟩

/-- Reads and writes with timeouts, completing and nested, one at a time. -/
def punctualRun : List LifeAct :=
  [.op (.read true 8 (.ok [1]) true), .op (.read true 8 (.error eagain) true),
   .op (.write true [2] (.error eagain) true), .op (.fire ⟨.read, 1⟩), .op .cancelWrite,
   .op (.write true [2] (.ok 1) true)]

theorem punctualRun_on_time :
    (lifeMachine.runList (.fromFd 5 1 .new) punctualRun).OnTime ∧
      ∀ a, (lifeMachine.runList (.fromFd 5 1 .new) punctualRun).Enabled a →
        (((lifeMachine.runList (.fromFd 5 1 .new) punctualRun).next a).OnTime ↔
          ¬ (lifeMachine.runList (.fromFd 5 1 .new) punctualRun).Overtakes a) :=
  on_time_until_overtaken (.of_follows ⟨1, .new, .inr ⟨5, rfl⟩⟩ (by decide))

/-- A read without a timeout is pending; a read with one completes at once, and its timeout then
times out the other.  With a timeout on the pending read and none on the other, it never times
out. -/
theorem overtaken_deadlines :
    (lifeMachine.Follows (fun _ _ => True) (.fromFd 5 1 .new)
        [.op (.read false 8 (.error eagain) true), .op (.read true 8 (.ok [1]) true),
          .op (.fire ⟨.read, 2⟩)] ∧
      (lifeMachine.runList (.fromFd 5 1 .new)
        [.op (.read false 8 (.error eagain) true), .op (.read true 8 (.ok [1]) true),
          .op (.fire ⟨.read, 2⟩)]).state.results = [(1, .data [1]), (0, .failed .timedOut)] ∧
      ¬ (lifeMachine.runList (.fromFd 5 1 .new)
        [.op (.read false 8 (.error eagain) true), .op (.read true 8 (.ok [1]) true)]).OnTime) ∧
    (lifeMachine.Follows (fun _ _ => True) (.fromFd 5 1 .new)
        [.op (.read true 8 (.error eagain) true), .op (.read false 8 (.ok [1]) true),
          .op (.fire ⟨.read, 1⟩)] ∧
      (lifeMachine.runList (.fromFd 5 1 .new)
        [.op (.read true 8 (.error eagain) true), .op (.read false 8 (.ok [1]) true),
          .op (.fire ⟨.read, 1⟩)]).state.results = [(1, .data [1])] ∧
      ¬ (lifeMachine.runList (.fromFd 5 1 .new)
        [.op (.read true 8 (.error eagain) true), .op (.read false 8 (.ok [1]) true)]).OnTime) := by
  refine ⟨⟨by decide, by decide, fun h => ?_⟩, ⟨by decide, by decide, fun h => ?_⟩⟩
  · obtain ⟨cb, ho, ht⟩ := h ⟨.read, 2⟩ (by decide)
    obtain rfl : 1 = cb := Option.some.inj ho
    exact absurd ht.own (by decide)
  · obtain ⟨cb, ho, ht⟩ := h ⟨.read, 1⟩ (by decide)
    obtain rfl : 0 = cb := Option.some.inj ho
    exact absurd (ht.hit (by decide)).1 (by decide)

end SocketLife

end RustNet
