import RustBase.Async.Waiters

/-!
# Async — channel

`channel` of `sync.rs`, with any number of clones of both halves and of `Recv` futures.  Every
function is one critical section of the channel's lock, and so one step.

Two histories are kept beside the state: the values of the sends that returned `Ok`, and the values
that polls returned.  What was delivered and what is queued is what was sent, in that order, and
nobody is parked unless the queue is empty and a sender is live (**`channel_sound`**).

A `Recv` borrows its receiver, which therefore outlives it; nothing here needs that, so the runs may
also drop the receiver first.
-/

namespace RustAsync
open Support

/-! ### The code -/

structure ChanInner (α : Type*) where
  items : List α
  recvWaiters : Waiters
  senders : ℕ
  receivers : ℕ

/-- Every receiver is gone; the value comes back. -/
structure SendError (α : Type*) where
  value : α
  deriving DecidableEq

/-- The channel is empty and every sender is gone. -/
inductive RecvError where
  | recvError
  deriving DecidableEq

namespace ChanInner

variable {α : Type*} {s : ChanInner α}

/-- `channel()`: the sender and the receiver it returns are counted. -/
def channel : ChanInner α := ⟨[], .new, 1, 1⟩

/-- `Sender::send`, with the wakers it invokes. -/
def send (s : ChanInner α) (value : α) : Except (SendError α) Unit × List WakerId × ChanInner α :=
  if s.receivers = 0 then (.error ⟨value⟩, [], s)
  else
    let s := { s with items := s.items ++ [value] }
    let (woken, x) := s.recvWaiters.wakeAll
    (.ok (), woken, { s with recvWaiters := x })

/-- `Clone for Sender`. -/
def cloneSender (s : ChanInner α) : ChanInner α := { s with senders := s.senders + 1 }

/-- `Drop for Sender`, with the wakers it invokes. -/
def dropSender (s : ChanInner α) : List WakerId × ChanInner α :=
  let s := { s with senders := s.senders - 1 }
  if s.senders = 0 then
    let (woken, x) := s.recvWaiters.wakeAll
    (woken, { s with recvWaiters := x })
  else ([], s)

/-- `Clone for Receiver`. -/
def cloneReceiver (s : ChanInner α) : ChanInner α := { s with receivers := s.receivers + 1 }

/-- `Drop for Receiver`. -/
def dropReceiver (s : ChanInner α) : ChanInner α := { s with receivers := s.receivers - 1 }

/-- `Recv::poll`, with the id it leaves in the future. -/
def pollRecv (s : ChanInner α) (id : Option ℕ) (w : WakerId) :
    Poll (Except RecvError α) × Option ℕ × ChanInner α :=
  match s.items with
  | v :: items =>
      (.ready (.ok v), none, { s with items := items, recvWaiters := s.recvWaiters.unpark id })
  | [] =>
      if s.senders = 0 then
        (.ready (.error .recvError), none, { s with recvWaiters := s.recvWaiters.unpark id })
      else
        let (k, x) := s.recvWaiters.park id w
        (.pending, some k, { s with recvWaiters := x })

/-- `Drop for Recv`. -/
def dropRecv (s : ChanInner α) (id : Option ℕ) : ChanInner α :=
  if id.isSome then { s with recvWaiters := s.recvWaiters.unpark id } else s

theorem dropRecv_eq {id : Option ℕ} :
    s.dropRecv id = { s with recvWaiters := s.recvWaiters.unpark id } := by
  cases id <;> rfl

/-- What a send does: nothing when every receiver is gone, else it queues and wakes everybody. -/
theorem send_cases (s : ChanInner α) (v : α) :
    (s.receivers = 0 ∧ s.send v = (.error ⟨v⟩, [], s)) ∨
    (0 < s.receivers ∧ s.send v = (.ok (), s.recvWaiters.wakeAll.1,
      { s with items := s.items ++ [v], recvWaiters := s.recvWaiters.wakeAll.2 })) := by
  by_cases h : s.receivers = 0
  · exact .inl ⟨h, by rw [send, if_pos h]⟩
  · exact .inr ⟨Nat.pos_of_ne_zero h, by rw [send, if_neg h]⟩

/-- What a poll does: it takes the first item, or sees the close, or parks. -/
theorem pollRecv_cases (s : ChanInner α) (id : Option ℕ) (w : WakerId) :
    (∃ v items, s.items = v :: items ∧ s.pollRecv id w =
      (.ready (.ok v), none, { s with items := items, recvWaiters := s.recvWaiters.unpark id })) ∨
    (s.items = [] ∧ s.senders = 0 ∧ s.pollRecv id w =
      (.ready (.error .recvError), none, { s with recvWaiters := s.recvWaiters.unpark id })) ∨
    (s.items = [] ∧ 0 < s.senders ∧ s.pollRecv id w =
      (.pending, some (s.recvWaiters.park id w).1,
        { s with recvWaiters := (s.recvWaiters.park id w).2 })) := by
  cases hi : s.items with
  | cons v items => exact .inl ⟨v, items, rfl, by simp only [pollRecv, hi]⟩
  | nil =>
      by_cases h : s.senders = 0
      · exact .inr (.inl ⟨rfl, h, by simp only [pollRecv, hi, if_pos h]⟩)
      · exact .inr (.inr ⟨rfl, Nat.pos_of_ne_zero h, by simp only [pollRecv, hi, if_neg h]⟩)

end ChanInner

/-! ### The machine -/

/-- A `Sender` or a `Receiver`, by its address. -/
abbrev HalfId := ℕ

structure ChanState (α : Type*) where
  inner : ChanInner α
  /-- the `Recv` futures -/
  recvs : Futures
  /-- the live halves of each kind -/
  senders : List HalfId
  receivers : List HalfId
  nextHalf : HalfId
  /-- the values of the sends that returned `Ok`, in their order -/
  sent : List α
  /-- the values that polls returned, in their order -/
  delivered : List α

inductive ChanAct (α : Type*) where
  | send (h : HalfId) (value : α)
  | cloneSender (h : HalfId)
  | dropSender (h : HalfId)
  | cloneReceiver (h : HalfId)
  | dropReceiver (h : HalfId)
  | recv (h : HalfId) (f : FutId)
  | poll (f : FutId) (w : WakerId)
  | dropRecv (f : FutId)
  deriving DecidableEq

namespace ChanState

variable {α : Type*}

def new : ChanState α where
  inner := .channel
  recvs := .new
  senders := [0]
  receivers := [1]
  nextHalf := 2
  sent := []
  delivered := []

def Enabled (s : ChanState α) : ChanAct α → Prop
  | .send h _ | .cloneSender h | .dropSender h => h ∈ s.senders
  | .cloneReceiver h | .dropReceiver h => h ∈ s.receivers
  | .recv h f => h ∈ s.receivers ∧ s.recvs.ids f = none
  | .poll f _ | .dropRecv f => (s.recvs.ids f).isSome = true

instance (s : ChanState α) : ∀ a, Decidable (s.Enabled a)
  | .send _ _ | .cloneSender _ | .dropSender _ | .cloneReceiver _ | .dropReceiver _ =>
      inferInstanceAs (Decidable (_ ∈ _))
  | .recv _ _ => inferInstanceAs (Decidable (_ ∧ _ = _))
  | .poll _ _ | .dropRecv _ => inferInstanceAs (Decidable (_ = _))

def send (s : ChanState α) (v : α) : ChanState α :=
  let (result, woken, inner) := s.inner.send v
  let s := { s with inner := inner, recvs := s.recvs.woken woken }
  match result with
  | .ok _ => { s with sent := s.sent ++ [v] }
  | .error _ => s

def poll (s : ChanState α) (f : FutId) (w : WakerId) : ChanState α :=
  let (result, id, inner) := s.inner.pollRecv (s.recvs.id f) w
  let s := { s with inner := inner }
  match result with
  | .ready (.ok v) =>
      { s with recvs := s.recvs.polled f id none, delivered := s.delivered ++ [v] }
  | .ready (.error _) => { s with recvs := s.recvs.polled f id none }
  | .pending => { s with recvs := s.recvs.polled f id (some w) }

def next (s : ChanState α) : ChanAct α → ChanState α
  | .send _ v => s.send v
  | .cloneSender _ =>
      { s with
        inner := s.inner.cloneSender
        senders := s.nextHalf :: s.senders
        nextHalf := s.nextHalf + 1 }
  | .dropSender h =>
      let (woken, inner) := s.inner.dropSender
      { s with inner := inner, senders := s.senders.erase h, recvs := s.recvs.woken woken }
  | .cloneReceiver _ =>
      { s with
        inner := s.inner.cloneReceiver
        receivers := s.nextHalf :: s.receivers
        nextHalf := s.nextHalf + 1 }
  | .dropReceiver h =>
      { s with inner := s.inner.dropReceiver, receivers := s.receivers.erase h }
  | .recv _ f => { s with recvs := s.recvs.create f }
  | .poll f w => s.poll f w
  | .dropRecv f => { s with inner := s.inner.dropRecv (s.recvs.id f), recvs := s.recvs.drop f }

end ChanState

def chanMachine (α : Type*) : Machine (ChanState α) (ChanAct α) where
  Init := fun s => s = .new
  Enabled := ChanState.Enabled
  next := ChanState.next

instance {α : Type*} : ∀ s a, Decidable ((chanMachine α).Enabled s a) :=
  fun s a => inferInstanceAs (Decidable (s.Enabled a))

/-! ### Conservation, and nobody left behind -/

namespace ChanState

variable {α : Type*} {s : ChanState α}

structure Sound (s : ChanState α) : Prop where
  fits : s.recvs.Fits s.inner.recvWaiters
  senders : s.inner.senders = s.senders.length
  receivers : s.inner.receivers = s.receivers.length
  conserved : s.delivered ++ s.inner.items = s.sent
  itemsNobody : s.inner.items ≠ [] → s.inner.recvWaiters.IsEmpty
  closedNobody : s.inner.senders = 0 → s.inner.recvWaiters.IsEmpty

theorem sound_new : Sound (α := α) .new where
  fits := .new
  senders := rfl
  receivers := rfl
  conserved := rfl
  itemsNobody _ := Waiters.isEmpty_new
  closedNobody _ := Waiters.isEmpty_new

theorem sound_send (h : Sound s) (v : α) : Sound (s.send v) := by
  rcases s.inner.send_cases v with ⟨-, he⟩ | ⟨-, he⟩
  · simp only [send, he]
    exact ⟨h.fits.woken [], h.senders, h.receivers, h.conserved, h.itemsNobody, h.closedNobody⟩
  · simp only [send, he]
    refine ⟨h.fits.wakeAll (List.Subset.refl _), h.senders, h.receivers, ?_,
      fun _ => Waiters.isEmpty_wakeAll, fun _ => Waiters.isEmpty_wakeAll⟩
    rw [← List.append_assoc, h.conserved]

theorem sound_poll (h : Sound s) (f : FutId) (w : WakerId) : Sound (s.poll f w) := by
  rcases s.inner.pollRecv_cases (s.recvs.id f) w with
    ⟨v, items, hi, he⟩ | ⟨hi, h₀, he⟩ | ⟨hi, h₀, he⟩
  · -- nobody was parked, since the queue was not empty
    have nobody : s.inner.recvWaiters.IsEmpty := h.itemsNobody (by simp [hi])
    simp only [poll, he]
    refine ⟨h.fits.ready f, h.senders, h.receivers, ?_, fun _ => nobody.unpark,
      fun _ => nobody.unpark⟩
    rw [← h.conserved, hi, List.append_assoc, List.singleton_append]
  · simp only [poll, he]
    exact ⟨h.fits.ready f, h.senders, h.receivers, h.conserved,
      fun hne => (h.itemsNobody hne).unpark, fun h' => (h.closedNobody h').unpark⟩
  · simp only [poll, he]
    exact ⟨h.fits.pending f w, h.senders, h.receivers, h.conserved, fun hne => absurd hi hne,
      fun h' => absurd h' (Nat.ne_of_gt h₀)⟩

theorem sound_dropSender (h : Sound s) {c : HalfId} (hc : c ∈ s.senders) :
    Sound (s.next (.dropSender c)) := by
  have senders : s.inner.senders - 1 = (s.senders.erase c).length := by
    rw [List.length_erase_of_mem hc, h.senders]
  by_cases h₀ : s.inner.senders - 1 = 0
  · -- the last sender wakes the receivers, who see the close
    simp only [next, ChanInner.dropSender, h₀, if_true]
    refine ⟨h.fits.wakeAll (List.Subset.refl _), ?_, h.receivers, h.conserved,
      fun _ => Waiters.isEmpty_wakeAll, fun _ => Waiters.isEmpty_wakeAll⟩
    rw [← senders, h₀]
  · simp only [next, ChanInner.dropSender, h₀, if_false]
    exact ⟨h.fits.woken [], senders, h.receivers, h.conserved, h.itemsNobody,
      fun h' => absurd h' h₀⟩

theorem sound_next (h : Sound s) {a : ChanAct α} (ha : s.Enabled a) : Sound (s.next a) := by
  cases a with
  | send _ v => exact sound_send h v
  | cloneSender c =>
      refine ⟨h.fits, ?_, h.receivers, h.conserved, h.itemsNobody, fun h' => ?_⟩
      · simp [next, ChanInner.cloneSender, h.senders]
      · cases h'
  | dropSender c => exact sound_dropSender h ha
  | cloneReceiver c =>
      refine ⟨h.fits, h.senders, ?_, h.conserved, h.itemsNobody, h.closedNobody⟩
      simp [next, ChanInner.cloneReceiver, h.receivers]
  | dropReceiver c =>
      refine ⟨h.fits, h.senders, ?_, h.conserved, h.itemsNobody, h.closedNobody⟩
      simp only [next, ChanInner.dropReceiver, h.receivers]
      rw [List.length_erase_of_mem ha]
  | recv c f =>
      exact ⟨h.fits.create ha.2, h.senders, h.receivers, h.conserved, h.itemsNobody,
        h.closedNobody⟩
  | poll f w => exact sound_poll h f w
  | dropRecv f =>
      simp only [next, ChanInner.dropRecv_eq]
      exact ⟨h.fits.drop f, h.senders, h.receivers, h.conserved,
        fun hne => (h.itemsNobody hne).unpark, fun h' => (h.closedNobody h').unpark⟩

end ChanState

theorem reachable_chanSound {α : Type*} {s : ChanState α} (h : (chanMachine α).Reachable s) :
    s.Sound := by
  refine h.invariant (fun s h₀ => ?_) fun s a _ hi _ ha => ChanState.sound_next hi ha
  obtain rfl : s = .new := h₀
  exact ChanState.sound_new

/-- **The channel loses nothing, repeats nothing and leaves nobody behind.**  In every reachable
state:

* what was delivered and then what is queued is what was sent;
* the counters are the numbers of live halves, so that they are positive when a half is dropped;
* a send fails exactly when no receiver is live, and then it changes nothing and wakes nobody;
* a poll returns the error only when the queue is empty and no sender is live;
* a receiver is parked only while the queue is empty and a sender is live;
* a `Recv` whose last poll was pending and which was not woken since would be pending now, and is
  woken by the next send that succeeds and by the drop of the last sender. -/
theorem channel_sound {α : Type*} {s : ChanState α} (h : (chanMachine α).Reachable s) :
    s.delivered ++ s.inner.items = s.sent ∧
    (s.inner.senders = s.senders.length ∧ ∀ c ∈ s.senders, 0 < s.inner.senders) ∧
    (s.inner.receivers = s.receivers.length ∧ ∀ c ∈ s.receivers, 0 < s.inner.receivers) ∧
    (∀ v, ((s.inner.send v).1 = .error ⟨v⟩ ↔ s.receivers = []) ∧
      (s.receivers = [] → (s.inner.send v).2 = ([], s.inner))) ∧
    (∀ f w, (s.inner.pollRecv (s.recvs.id f) w).1 = .ready (.error .recvError) →
      s.inner.items = [] ∧ s.senders = []) ∧
    (¬ s.inner.recvWaiters.IsEmpty → s.inner.items = [] ∧ 0 < s.inner.senders) ∧
    (∀ f w, s.recvs.awaiting f = some w →
      (∀ w', (s.inner.pollRecv (s.recvs.id f) w').1 = .pending) ∧
      (∀ v, s.receivers ≠ [] → w ∈ (s.inner.send v).2.1) ∧
      (s.inner.senders = 1 → w ∈ s.inner.dropSender.1)) := by
  have hs := reachable_chanSound h
  have parked : ¬ s.inner.recvWaiters.IsEmpty → s.inner.items = [] ∧ 0 < s.inner.senders := by
    intro hne
    refine ⟨?_, Nat.pos_of_ne_zero fun h₀ => hne (hs.closedNobody h₀)⟩
    by_contra hi
    exact hne (hs.itemsNobody hi)
  have noReceiver : s.inner.receivers = 0 ↔ s.receivers = [] := by
    rw [hs.receivers, List.length_eq_zero_iff]
  have noSender : s.inner.senders = 0 ↔ s.senders = [] := by
    rw [hs.senders, List.length_eq_zero_iff]
  refine ⟨hs.conserved, ⟨hs.senders, fun c hc => ?_⟩, ⟨hs.receivers, fun c hc => ?_⟩,
    fun v => ⟨?_, fun hr => ?_⟩, fun f w he => ?_, parked, fun f w hf => ⟨fun w' => ?_, ?_, ?_⟩⟩
  · rw [hs.senders]; exact List.length_pos_of_mem hc
  · rw [hs.receivers]; exact List.length_pos_of_mem hc
  · rw [← noReceiver]
    rcases s.inner.send_cases v with ⟨h₀, he⟩ | ⟨h₀, he⟩
    · simp [he, h₀]
    · simp [he, Nat.ne_of_gt h₀]
  · rw [ChanInner.send, if_pos (noReceiver.mpr hr)]
  · rcases s.inner.pollRecv_cases (s.recvs.id f) w with ⟨v, _, -, he'⟩ | ⟨hi, h₀, -⟩ | ⟨-, -, he'⟩
    · rw [he'] at he; cases he
    · exact ⟨hi, noSender.mp h₀⟩
    · rw [he'] at he; cases he
  · obtain ⟨hi, h₀⟩ := parked (hs.fits.not_isEmpty hf)
    simp [ChanInner.pollRecv, hi, Nat.ne_of_gt h₀]
  · intro v hr
    rw [ChanInner.send, if_neg (mt noReceiver.mp hr)]
    exact hs.fits.mem_wakeAll hf
  · intro h₁
    simp only [ChanInner.dropSender, h₁]
    exact hs.fits.mem_wakeAll hf

/-- Two futures park; a value wakes both, the second takes it, and the first parks again. -/
def raceRun : List (ChanAct ℕ) :=
  [.recv 1 0, .poll 0 5, .recv 1 1, .poll 1 6, .send 0 42, .poll 1 6, .poll 0 7]

/-- The value went to one of them, and the other one is woken by the next. -/
theorem raceRun_delivers :
    ((chanMachine ℕ).runList .new raceRun).delivered = [42] ∧
    ((chanMachine ℕ).runList .new raceRun).recvs.awaiting 0 = some 7 ∧
    7 ∈ (((chanMachine ℕ).runList .new raceRun).inner.send 43).2.1 := by
  have hf : (chanMachine ℕ).Follows (fun _ _ => True) .new raceRun := by decide +kernel
  have hw : ((chanMachine ℕ).runList .new raceRun).recvs.awaiting 0 = some 7 := by decide +kernel
  have sound := channel_sound (.of_follows rfl hf)
  exact ⟨by decide +kernel, hw, (sound.2.2.2.2.2.2 0 7 hw).2.1 43 (by decide +kernel)⟩

end RustAsync
