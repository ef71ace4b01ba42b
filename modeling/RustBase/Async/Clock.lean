import RustBase.Async.Bridge

/-!
# Async — timers and the clock

The cells of `Timer` and `Interval`, with the clock that `post_delayed_task` reads: what a poll posts
is due a period after the reading, and the runner does not begin it before.

* `Paced`: a period goes by for each delayed task, from the first poll to its start, because the
  next one is posted when the tick of the last has been taken.
* `ticks_are_paced`: a `sleep` is not over before its time, and the `n`-th item of an `interval` is
  not there before `n` periods after the first poll.  The cadence drifts by what the consumer takes
  between two polls, so there may be fewer items.
* `interval_take`: `Take` does not poll again after its last item, and leaves no delayed task behind.
-/

namespace RustAsync
open Support

/-- The cells whose job is a delayed task. -/
def Bridge.delays : Bridge → Bool
  | .timer | .interval => true
  | .offload | .oneshot => false

structure ClockState where
  cell : BridgeState Unit
  now : ℕ
  /-- the clock at the first post -/
  first : Option ℕ
  /-- the deadline of the last delayed task posted -/
  due : ℕ
  deriving DecidableEq

inductive ClockAct where
  | tick (n : ℕ)
  | cell (a : BridgeAct)
  deriving DecidableEq

namespace ClockState

variable (b : Bridge) (period : ℕ)

def init (now : ℕ) : ClockState := ⟨.init b, now, none, 0⟩

/-- The step posts a delayed task. -/
def Posts (s : ClockState) (a : BridgeAct) : Prop := a = .step .post ∧ s.cell.scheduled = false

instance (s : ClockState) (a : BridgeAct) : Decidable (s.Posts a) :=
  inferInstanceAs (Decidable (_ ∧ _))

/-- A delayed task is not begun before its deadline. -/
def Enabled (s : ClockState) : ClockAct → Prop
  | .tick _ => True
  | .cell a => s.cell.Enabled a ∧ (a = .start → s.due ≤ s.now)

instance (s : ClockState) : ∀ a, Decidable (s.Enabled a)
  | .tick _ => inferInstanceAs (Decidable True)
  | .cell _ => inferInstanceAs (Decidable (_ ∧ (_ → _)))

def next (s : ClockState) : ClockAct → ClockState
  | .tick n => { s with now := s.now + n }
  | .cell a =>
      let cell := s.cell.next b () a
      if s.Posts a then ⟨cell, s.now, some (s.first.getD s.now), s.now + period⟩
      else { s with cell := cell }

end ClockState

/-- `sleep(period)` is that of `Bridge.timer`, and `interval(period)` that of `Bridge.interval`. -/
def clockMachine (b : Bridge) (period : ℕ) : Machine ClockState ClockAct where
  Init s := ∃ now, s = .init b now
  Enabled := ClockState.Enabled
  next := ClockState.next b period

instance {b : Bridge} {period : ℕ} : ∀ s a, Decidable ((clockMachine b period).Enabled s a) :=
  fun s a => inferInstanceAs (Decidable (s.Enabled a))

namespace ClockState

variable {b : Bridge} {period : ℕ} {s : ClockState} {C : ClockState → ClockAct → Prop}

theorem cell_next (s : ClockState) (a : BridgeAct) :
    (s.next b period (.cell a)).cell = s.cell.next b () a := by
  simp only [next]
  split <;> rfl

/-- Without its clock it is the machine of the cell. -/
theorem cell_reachable (h : (clockMachine b period).ReachableBy C s) :
    (bridgeMachine b ()).Reachable s.cell := by
  refine h.refines (N := bridgeMachine b ()) ?_ fun s a _ _ ha => ?_
  · rintro s ⟨now, rfl⟩
    rfl
  · cases a with
    | tick n => exact .inl rfl
    | cell a => exact .inr ⟨a, ha.1, s.cell_next a⟩

/-- Nothing is outstanding when a poll posts a delayed task. -/
theorem idle_of_posts (hc : s.cell.Counted b ()) (hs : s.cell.scheduled = false) :
    s.cell.posted = 0 ∧ s.cell.running = 0 := by
  have hj := hc.jobs
  have hp := hc.posts
  have hv := hc.sets
  rw [hs, Bool.toNat_false, Nat.zero_add] at hp
  by_cases hr : b.rearms = true
  · rw [if_pos hr] at hp
    rw [if_pos (BridgeState.Counted.takes_of_rearms hr)] at hv
    omega
  · rw [if_neg hr] at hp
    omega

/-- A step of a poll that does not post. -/
theorem counts_step {x : PollStep} (ha : s.cell.future.rest.head? = some x)
    (hx : x = .post → s.cell.scheduled = true) :
    (s.cell.next b () (.step x)).posts = s.cell.posts ∧
      (s.cell.next b () (.step x)).posted = s.cell.posted := by
  obtain ⟨w, r, hf⟩ := BridgeState.polling_of_rest ha
  simp only [BridgeState.next, BridgeState.advance_of_polling hf]
  cases x with
  | post => simp [BridgeState.step, BridgeState.post, hx rfl]
  | look =>
      simp only [BridgeState.step]
      split <;> exact ⟨rfl, rfl⟩
  | lock => exact ⟨rfl, rfl⟩
  | store => exact ⟨rfl, rfl⟩
  | unlock => exact ⟨rfl, rfl⟩

/-! ### The pace -/

/-- A period has gone by for each delayed task that was begun, and the deadline of the one that waits
is a period later. -/
structure Paced (period : ℕ) (s : ClockState) : Prop where
  unposted : s.first = none → s.cell.posts = 0
  begun : ∀ t ∈ s.first, t + (s.cell.posts - s.cell.posted) * period ≤ s.now
  due : ∀ t ∈ s.first, 0 < s.cell.posted → t + s.cell.posts * period ≤ s.due

namespace Paced

/-- A step of the cell that posts nothing and begins nothing. -/
theorem of_cell (h : s.Paced period) {c : BridgeState Unit} (hp : c.posts = s.cell.posts)
    (hq : c.posted = s.cell.posted) : Paced period { s with cell := c } := by
  refine ⟨fun hf => hp.trans (h.unposted hf), fun t ht => ?_, fun t ht hpos => ?_⟩
  · simp only [hp, hq]
    exact h.begun t ht
  · simp only [hp, hq] at hpos ⊢
    exact h.due t ht hpos

/-- A delayed task is posted when the one before has been begun. -/
theorem post (h : s.Paced period) (hc : s.cell.Counted b ()) (hs : s.cell.scheduled = false)
    {c : BridgeState Unit} (hp : c.posts = s.cell.posts + 1) (hq : c.posted = s.cell.posted + 1) :
    Paced period ⟨c, s.now, some (s.first.getD s.now), s.now + period⟩ := by
  obtain ⟨hposted, -⟩ := idle_of_posts hc hs
  have begun : ∀ t, t = s.first.getD s.now → t + s.cell.posts * period ≤ s.now := by
    rintro t rfl
    cases hf : s.first with
    | none => simp [h.unposted hf]
    | some t =>
        have := h.begun t hf
        rwa [hposted, Nat.sub_zero] at this
  refine ⟨nofun, fun t ht => ?_, fun t ht _ => ?_⟩
  · have := begun t (Option.mem_some_iff.mp ht).symm
    simpa [hp, hq, hposted] using this
  · have := begun t (Option.mem_some_iff.mp ht).symm
    simp only [hp, Nat.add_mul, Nat.one_mul]
    omega

/-- It is begun when it is due. -/
theorem start (h : s.Paced period) (ha : 0 < s.cell.posted)
    (hd : s.due ≤ s.now) : Paced period { s with cell := s.cell.next b () .start } := by
  refine ⟨h.unposted, fun t ht => ?_, fun t ht hpos => ?_⟩
  · have due := h.due t ht ha
    have less : (s.cell.posts - (s.cell.posted - 1)) * period ≤ s.cell.posts * period :=
      Nat.mul_le_mul_right _ (Nat.sub_le ..)
    simp only [BridgeState.next]
    omega
  · exact h.due t ht ha

theorem next (h : s.Paced period) (hc : s.cell.Counted b ()) {a : ClockAct} (ha : s.Enabled a) :
    (s.next b period a).Paced period := by
  cases a with
  | tick n =>
      exact ⟨h.unposted, fun t ht => Nat.le_trans (h.begun t ht) (Nat.le_add_right ..), h.due⟩
  | cell a =>
      obtain ⟨ha, hdue⟩ := ha
      simp only [ClockState.next]
      split
      next hpost =>
        obtain ⟨rfl, hs⟩ := hpost
        obtain ⟨w, r, hf⟩ := BridgeState.polling_of_rest ha.1
        refine h.post hc hs ?_ ?_ <;>
          simp [BridgeState.next, BridgeState.advance_of_polling hf, BridgeState.step,
            BridgeState.post, hs]
      next hpost =>
        cases a with
        | start => exact h.start ha (hdue rfl)
        | step x =>
            have done : x = .post → s.cell.scheduled = true := by
              rintro rfl
              exact Bool.of_not_eq_false fun hs => hpost ⟨rfl, hs⟩
            obtain ⟨hp, hq⟩ := counts_step ha.1 done
            exact h.of_cell hp hq
        | poll w => exact h.of_cell rfl rfl
        | returns =>
            obtain ⟨w, hf⟩ := BridgeState.polling_of_isPolling ha.1 ha.2
            refine h.of_cell ?_ ?_ <;>
              simp only [BridgeState.next, BridgeState.returns_of_polling hf]
        | set => exact h.of_cell rfl rfl
        | wake o => exact h.of_cell rfl rfl

end Paced

theorem paced_of_reachable (hb : b.delays = true) (h : (clockMachine b period).ReachableBy C s) :
    s.Paced period := by
  refine h.invariant ?_ fun s a hs hi _ ha =>
    hi.next (BridgeState.counted_of_reachable (cell_reachable hs)) ha
  rintro s ⟨now, rfl⟩
  refine ⟨fun _ => ?_, nofun, nofun⟩
  cases b <;> first | rfl | cases hb

/-- The items that an `Interval` has given, and whether a `Timer` is over. -/
def items (b : Bridge) (s : ClockState) : ℕ :=
  if b.takes then s.cell.delivered.length else s.cell.value.isSome.toNat

/-- Each item has had its delayed task. -/
theorem items_le (hc : s.cell.Counted b ()) : s.items b ≤ s.cell.posts - s.cell.posted := by
  have hj := hc.jobs
  have hs := hc.sets
  rw [items]
  split
  next ht =>
    rw [if_pos ht] at hs
    omega
  next ht =>
    rw [if_neg ht] at hs
    omega

theorem items_paced (hb : b.delays = true) (h : (clockMachine b period).ReachableBy C s) :
    s.items b = 0 ∨ ∃ t ∈ s.first, t + s.items b * period ≤ s.now := by
  have paced := paced_of_reachable hb h
  have le := items_le (BridgeState.counted_of_reachable (cell_reachable h))
  cases hf : s.first with
  | none =>
      have := paced.unposted hf
      exact .inl (by omega)
  | some t =>
      have begun := paced.begun t hf
      have := Nat.mul_le_mul_right period le
      exact .inr ⟨t, rfl, by omega⟩

end ClockState

/-- **Timers are not early.**  In every run, whichever threads poll and however the polls and the
delayed tasks interleave: when a `sleep` is over, or an `interval` has given `n` items, that many
periods have gone by since the first poll. -/
theorem ticks_are_paced {b : Bridge} {period : ℕ} {s : ClockState} (hb : b.delays = true)
    (h : (clockMachine b period).Reachable s) :
    s.items b = 0 ∨ ∃ t ∈ s.first, t + s.items b * period ≤ s.now :=
  ClockState.items_paced hb h

/-- Two polls of an `interval` of 10, and its tick between them. -/
def paceRun : List ClockAct :=
  [.tick 3, .cell (.poll 5), .cell (.step .lock), .cell (.step .look), .cell (.step .store),
    .cell (.step .post), .cell (.step .unlock), .cell .returns, .tick 10, .cell .start, .cell .set,
    .cell (.wake (some ⟨5, 0⟩)), .tick 1, .cell (.poll 5), .cell (.step .lock), .cell (.step .look)]

/-- The item is there a period after the first poll, at 3. -/
theorem paceRun_paced :
    let s := (clockMachine .interval 10).runList (.init .interval 0) paceRun
    s.items .interval = 1 ∧ s.now = 14 ∧ ∃ t ∈ s.first, t + 1 * 10 ≤ s.now := by
  have reached : (clockMachine .interval 10).Reachable
      ((clockMachine .interval 10).runList (.init .interval 0) paceRun) :=
    .of_follows ⟨0, rfl⟩ (by decide +kernel)
  have one : ClockState.items .interval
      ((clockMachine .interval 10).runList (.init .interval 0) paceRun) = 1 := by decide +kernel
  have paced := ticks_are_paced rfl reached
  rw [one] at paced
  exact ⟨one, by decide +kernel, paced.resolve_left nofun⟩

/-! ### `Take` -/

/-- `take(n)` polls the `Interval` while it has given less than `n` items. -/
def TakesAtMost (n : ℕ) (s : ClockState) : ClockAct → Prop
  | .cell (.poll _) => s.cell.delivered.length < n
  | _ => True

instance (n : ℕ) (s : ClockState) : ∀ a, Decidable (TakesAtMost n s a)
  | .cell (.poll _) => inferInstanceAs (Decidable (_ < _))
  | .tick _ | .cell (.step _) | .cell .returns | .cell .start | .cell .set | .cell (.wake _) =>
      inferInstanceAs (Decidable True)

namespace ClockState

variable {period n : ℕ} {s : ClockState}

/-- Whoever has posted a tick, or is about to, wants an item. -/
structure Wanted (n : ℕ) (s : ClockState) : Prop where
  most : s.cell.delivered.length ≤ n
  wants : s.cell.scheduled = true ∨ s.cell.future.isPolling = true → s.cell.delivered.length < n

theorem Wanted.next (h : s.Wanted n) {a : ClockAct} (ha : s.Enabled a) (hC : TakesAtMost n s a) :
    (s.next .interval period a).Wanted n := by
  cases a with
  | tick k => exact ⟨h.most, h.wants⟩
  | cell a =>
      suffices hw : ∀ c, c = s.cell.next .interval () a → c.delivered.length ≤ n ∧
          (c.scheduled = true ∨ c.future.isPolling = true → c.delivered.length < n) by
        obtain ⟨h₁, h₂⟩ := hw _ rfl
        exact ⟨(s.cell_next a).symm ▸ h₁, (s.cell_next a).symm ▸ h₂⟩
      rintro c rfl
      obtain ⟨ha, -⟩ := ha
      cases a with
      | poll w => exact ⟨h.most, fun _ => hC⟩
      | step x =>
          obtain ⟨w, r, hf⟩ := BridgeState.polling_of_rest ha.1
          have more : s.cell.delivered.length < n := h.wants (.inr (by rw [hf]; rfl))
          simp only [BridgeState.next, BridgeState.advance_of_polling hf]
          cases x with
          | look =>
              simp only [BridgeState.step]
              split
              · -- the tick is taken, and the next one is not asked for
                exact ⟨more, fun hw => by rcases hw with hw | hw <;> cases hw⟩
              · exact ⟨h.most, fun _ => more⟩
          | post =>
              simp only [BridgeState.step, BridgeState.post]
              split <;> exact ⟨h.most, fun _ => more⟩
          | lock => exact ⟨h.most, fun _ => more⟩
          | store => exact ⟨h.most, fun _ => more⟩
          | unlock => exact ⟨h.most, fun _ => more⟩
      | returns =>
          obtain ⟨w, hf⟩ := BridgeState.polling_of_isPolling ha.1 ha.2
          simp only [BridgeState.next, BridgeState.returns_of_polling hf]
          refine ⟨h.most, fun hw => h.wants (hw.imp_right fun hw => ?_)⟩
          cases hw
      | start => exact ⟨h.most, h.wants⟩
      | set => exact ⟨h.most, h.wants⟩
      | wake o => exact ⟨h.most, h.wants⟩

end ClockState

/-- **`interval(period).take(n)`.**  In every run it posts at most `n` delayed tasks.  When it has
given its `n` items, all `n` were posted and have run, and that took `n` periods. -/
theorem interval_take {period n : ℕ} {s : ClockState}
    (h : (clockMachine .interval period).ReachableBy (TakesAtMost n) s) :
    s.cell.delivered.length ≤ n ∧ s.cell.posts ≤ n ∧
      (s.cell.delivered.length = n → s.cell.posts = n ∧ s.cell.posted + s.cell.running = 0 ∧
        (n = 0 ∨ ∃ t ∈ s.first, t + n * period ≤ s.now)) := by
  have wanted : s.Wanted n := by
    refine h.invariant ?_ fun s a _ hi hC ha => hi.next ha hC
    rintro s ⟨now, rfl⟩
    exact ⟨Nat.zero_le _, fun hw => by rcases hw with hw | hw <;> cases hw⟩
  have counted := BridgeState.counted_of_reachable (ClockState.cell_reachable h)
  have jobs := counted.jobs
  have posts := counted.posts
  have sets := counted.sets
  simp only [Bridge.rearms, Bridge.takes, if_true] at posts sets
  have last : s.cell.delivered.length = n → s.cell.scheduled = false := fun hn => by
    cases hs : s.cell.scheduled with
    | false => rfl
    | true => exact absurd (wanted.wants (.inl hs)) (by omega)
  have most := wanted.most
  refine ⟨most, ?_, fun hn => ?_⟩
  · cases hs : s.cell.scheduled with
    | false => rw [hs] at posts; simp at posts; omega
    | true =>
        have := wanted.wants (.inl hs)
        rw [hs] at posts
        simp at posts
        omega
  · rw [last hn] at posts
    simp only [Bool.toNat_false, Nat.zero_add] at posts
    refine ⟨by omega, by omega, ?_⟩
    have paced := ClockState.items_paced rfl h
    rwa [show s.items .interval = n from hn] at paced

/-- The run of `paceRun`, under `take(1)`. -/
theorem paceRun_take :
    let s := (clockMachine .interval 10).runList (.init .interval 0) paceRun
    s.cell.posts = 1 ∧ s.cell.posted + s.cell.running = 0 := by
  have reached : (clockMachine .interval 10).ReachableBy (TakesAtMost 1)
      ((clockMachine .interval 10).runList (.init .interval 0) paceRun) := by
    exact .of_follows ⟨0, rfl⟩ (by decide +kernel)
  obtain ⟨-, -, all⟩ := interval_take reached
  obtain ⟨posts, none, -⟩ := all (by decide +kernel)
  exact ⟨posts, none⟩

end RustAsync
