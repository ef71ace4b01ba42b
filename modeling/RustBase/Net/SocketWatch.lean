import RustBase.Net.SocketPosix

/-!
# Net — the watch of a pending operation

The pump has one entry for the socket's descriptor, and both directions share it: registering for
one direction replaces the watch of the other, and the two operations that wait for one direction
share its controller, so stopping it for one of them ends the watch of the other.

* `Apart`: the steps that do none of this.  No operation becomes pending while one of the other
  direction is; none is cancelled, timed out or served while one of the same direction is pending;
  and an event consumes the entry only if it calls the socket.
* `pending_operations_watched`: in runs of such steps every pending operation is watched, between
  dispatches.
* `overlapRuns_lose_watch`: each of the conditions is needed.
-/

namespace RustNet
open Support RustIo

namespace SocketState

variable {s s' : SocketState} {o : Option Direction}

/-- The pump has an entry for the socket that asks for the direction. -/
def Watched (s : SocketState) (d : Direction) : Prop :=
  ∃ e ∈ s.entry, e.watcher = s.id ∧ e.mode.covers d = true

/-- Every pending operation is watched. -/
def Covered (s : SocketState) : Prop := ∀ d, s.socket.PendingIn d → s.Watched d

instance (s : SocketState) (d : Direction) : Decidable (s.Watched d) :=
  inferInstanceAs (Decidable (∃ e ∈ s.entry, _))

instance (s : SocketState) : Decidable s.Covered :=
  decidable_of_iff ((s.socket.PendingIn .read → s.Watched .read) ∧
      (s.socket.PendingIn .write → s.Watched .write))
    ⟨fun h d => by cases d; exacts [h.1, h.2], fun h => ⟨h .read, h .write⟩⟩

/-- A step that leaves the watches of the operations pending alone. -/
def Apart (s : SocketState) : SocketAct → Prop
  | .connect _ r _ => r = .error einprogress → ¬ s.socket.PendingIn .read
  | .readIfReady _ _ => ¬ s.socket.PendingIn .write
  | .read _ _ r _ => r = .error eagain → ¬ s.socket.PendingIn .write
  | .write _ _ r _ => r = .error eagain → ¬ s.socket.PendingIn .read
  | .accept r _ => r = .error eagain → ¬ s.socket.PendingIn .write
  | .cancelAccept => s.socket.pendingRead = none
  | .cancelRead => s.socket.pendingAccept = none
  | .cancelWrite => s.socket.pendingConnect = none
  | .fire ⟨.connect, gen⟩ => s.socket.connectGen = gen → ¬ s.socket.BothPending .write
  | .fire ⟨.read, gen⟩ => s.socket.readGen = gen → ¬ s.socket.BothPending .read
  | .fire ⟨.write, gen⟩ => s.socket.writeGen = gen → ¬ s.socket.BothPending .write
  | .dispatch flags => (∀ e ∈ s.entry, meets flags e.mode = true) ∧
      ¬ s.socket.BothPending .read ∧ ¬ s.socket.BothPending .write
  | .close | .call _ _ _ | .callDone _ | .dispatchDone => True

instance (s : SocketState) : ∀ a, Decidable (s.Apart a)
  | .connect _ _ _ | .read _ _ _ _ | .write _ _ _ _ | .accept _ _
  | .fire ⟨.connect, _⟩ | .fire ⟨.read, _⟩ | .fire ⟨.write, _⟩ =>
      inferInstanceAs (Decidable (_ → _))
  | .readIfReady _ _ => inferInstanceAs (Decidable (¬ _))
  | .cancelAccept | .cancelRead | .cancelWrite => inferInstanceAs (Decidable (_ = _))
  | .dispatch _ => inferInstanceAs (Decidable (_ ∧ _))
  | .close | .call _ _ _ | .callDone _ | .dispatchDone => inferInstanceAs (Decidable True)

/-! ### The invariant -/

/-- The operations pending, with an entry for `o`: outside of a dispatch, and once its call has been
made, they all wait for the direction of the entry; before that the entry is gone, and there is one
operation, which the call serves. -/
def Held (x : SocketPosix) (o : Option Direction) : DispatchPhase → Prop
  | .idle | .calling [] | .inCallback [] => ∀ d, x.PendingIn d → o = some d
  | .calling [c] => ∀ d, x.PendingIn d → d = c.direction ∧ ¬ x.BothPending d
  | .calling (_ :: _ :: _) | .inCallback (_ :: _) => False

/-- The states differ in the slots, and in what the watches do not depend on. -/
structure SameWatch (s s' : SocketState) : Prop where
  fd : s'.socket.fd = s.socket.fd
  watcher : s'.socket.watcher = s.socket.watcher
  id : s'.id = s.id
  table : s'.table = s.table
  phase : s'.phase = s.phase

structure Inv (s : SocketState) (o : Option Direction) : Prop where
  wired : ∀ fd, s.socket.fd = some fd → Wired s.table s.socket.watcher fd s.id o
  closed : s.socket.fd = none → o = none
  held : Held s.socket o s.phase

/-! ### The calls of a dispatch -/

theorem sameWatch_call (s : SocketState) (d : Direction) (sys : Syscalls) :
    SameWatch s (s.call d sys) := by
  cases d with
  | read =>
      simp only [call, onFileCanReadWithoutBlocking]
      split
      · exact ⟨rfl, rfl, rfl, rfl, rfl⟩
      · split <;> exact ⟨rfl, rfl, rfl, rfl, rfl⟩
  | write =>
      simp only [call, onFileCanWriteWithoutBlocking]
      split
      · exact ⟨rfl, rfl, rfl, rfl, rfl⟩
      · split <;> exact ⟨rfl, rfl, rfl, rfl, rfl⟩

/-- The slots after a call of `on_file_can_read_without_blocking`. -/
theorem slots_onFileCanRead (s : SocketState) (sys : Syscalls) :
    let x := (s.onFileCanReadWithoutBlocking sys).socket
    x.pendingAccept = none ∧ x.pendingWrite = s.socket.pendingWrite ∧
      x.pendingConnect = s.socket.pendingConnect ∧
      x.pendingRead = if s.socket.pendingAccept.isSome then s.socket.pendingRead else none := by
  unfold onFileCanReadWithoutBlocking
  split
  · rename_i cb ha
    exact ⟨rfl, rfl, rfl, by rw [ha]; rfl⟩
  · rename_i ha
    split <;> exact ⟨ha, rfl, rfl, by rw [ha]; rfl⟩

theorem slots_onFileCanWrite (s : SocketState) (sys : Syscalls) :
    let x := (s.onFileCanWriteWithoutBlocking sys).socket
    x.pendingConnect = none ∧ x.pendingRead = s.socket.pendingRead ∧
      x.pendingAccept = s.socket.pendingAccept ∧
      x.pendingWrite = if s.socket.pendingConnect.isSome then s.socket.pendingWrite else none := by
  unfold onFileCanWriteWithoutBlocking
  split
  · rename_i cb hc
    exact ⟨rfl, rfl, rfl, by rw [hc]; rfl⟩
  · rename_i hc
    split <;> exact ⟨hc, rfl, rfl, by rw [hc]; rfl⟩

/-- A call serves one of the operations that wait for its direction. -/
theorem pendingIn_call {d d' : Direction} {sys : Syscalls}
    (h : (s.call d sys).socket.PendingIn d') :
    s.socket.PendingIn d' ∧ (d' = d → s.socket.BothPending d) := by
  cases d with
  | read =>
      obtain ⟨ha, hw, hc, hr⟩ := slots_onFileCanRead s sys
      cases d' with
      | read =>
          simp only [call, SocketPosix.PendingIn, ha, hr] at h
          split at h <;> simp_all [SocketPosix.PendingIn, SocketPosix.BothPending]
      | write =>
          simp only [call, SocketPosix.PendingIn, hw, hc] at h
          exact ⟨h, nofun⟩
  | write =>
      obtain ⟨hc, hr, ha, hw⟩ := slots_onFileCanWrite s sys
      cases d' with
      | read =>
          simp only [call, SocketPosix.PendingIn, hr, ha] at h
          exact ⟨h, nofun⟩
      | write =>
          simp only [call, SocketPosix.PendingIn, hc, hw] at h
          split at h <;> simp_all [SocketPosix.PendingIn, SocketPosix.BothPending]

/-- An event that an entry for one direction asks for comes to one call. -/
theorem calls_mode {flags : UInt32} {d : Direction} {fd : Fd} {w : WatcherId} {p : Bool} {g : ℕ}
    (h : meets flags d.mode = true) : calls fd flags ⟨w, p, d.mode, g⟩ = [⟨fd, w, g, d⟩] := by
  cases d <;> simp_all [calls, meets, canDo, WatchMode.covers, Direction.mode]

namespace Inv

theorem init (fd : Fd) (id : WatcherId) {table : WatchTable} (ht : table.watches fd = none) :
    Inv (.init fd id table) none where
  wired fd' hfd := by
    cases hfd
    exact .init ht fun d => by cases d <;> rfl
  closed _ := rfl
  held d hd := by
    cases d <;> simp [SocketState.init, SocketPosix.fromFd, SocketPosix.PendingIn] at hd

theorem pending (h : Inv s o) (hu : s.phase.userCode = true) {d : Direction}
    (hd : s.socket.PendingIn d) : o = some d := by
  have hh := h.held
  cases hp : s.phase with
  | idle => rw [hp] at hh; exact hh d hd
  | calling cs => rw [hp] at hu; cases hu
  | inCallback cs =>
      rw [hp] at hh
      cases cs with
      | nil => exact hh d hd
      | cons => exact hh.elim

/-- Code of users keeps the phase, and `Held` says the same before and after. -/
theorem held_of (h : Inv s o) (hu : s.phase.userCode = true) {x : SocketPosix}
    {o' : Option Direction} (hx : ∀ d, x.PendingIn d → o' = some d) : Held x o' s.phase := by
  have hh := h.held
  cases hp : s.phase with
  | idle => exact hx
  | calling cs => rw [hp] at hu; cases hu
  | inCallback cs =>
      rw [hp] at hh
      cases cs with
      | nil => exact hx
      | cons => exact hh.elim

/-- An operation is stored and its direction armed; nothing waits for the other direction. -/
theorem arm (h : Inv s o) (hu : s.phase.userCode = true) (hfd : s.socket.fd.isSome) (d : Direction)
    (hs : SameWatch s s') (hx : ∀ d', s'.socket.PendingIn d' → d' = d) :
    Inv (s'.arm d true) (some d) := by
  obtain ⟨fd, hfd⟩ := Option.isSome_iff_exists.mp hfd
  have hfd' : s'.socket.fd = some fd := hs.fd.trans hfd
  have hw := (h.wired fd hfd).watch d
  rw [← hs.watcher, ← hs.table, ← hs.id] at hw
  simp only [SocketState.arm, hfd']
  refine ⟨fun fd₁ hfd₁ => ?_, fun hn => ?_, ?_⟩
  · rw [SocketPosix.fd_setWatcher, hfd'] at hfd₁
    cases hfd₁
    rw [SocketPosix.watcher_setWatcher]
    exact hw
  · rw [SocketPosix.fd_setWatcher, hfd'] at hn
    cases hn
  · rw [hs.phase]
    refine h.held_of hu fun d' hd' => ?_
    rw [hx d' ((SocketPosix.pendingIn_setWatcher ..).mp hd')]

/-- An operation is dropped and the controller of its direction stopped; nothing else waits for the
direction. -/
theorem stop (h : Inv s o) (hu : s.phase.userCode = true) (d : Direction) (hs : SameWatch s s')
    (hx : ∀ d', s'.socket.PendingIn d' → d' ≠ d ∧ s.socket.PendingIn d') :
    ∃ o', Inv (s'.stop d) o' := by
  refine ⟨if o = some d then none else o, fun fd hfd => ?_, fun hn => ?_, ?_⟩
  · rw [SocketState.stop, SocketPosix.fd_setWatcher, hs.fd] at hfd
    have hw := (h.wired fd hfd).stop d
    rw [← hs.watcher, ← hs.table, ← hs.id] at hw
    simp only [SocketState.stop, SocketPosix.watcher_setWatcher, FdWatchController.watch_stop]
    exact hw
  · rw [SocketState.stop, SocketPosix.fd_setWatcher, hs.fd] at hn
    rw [h.closed hn]
    simp
  · simp only [SocketState.stop]
    rw [hs.phase]
    refine h.held_of hu fun d' hd' => ?_
    obtain ⟨hne, hp⟩ := hx d' ((SocketPosix.pendingIn_setWatcher ..).mp hd')
    have ho := h.pending hu hp
    rw [if_neg (by rw [ho]; simpa using hne), ho]

/-- The fields the invariant does not mention. -/
theorem bump (h : Inv s o) (timeouts : List Timeout) (cb : CallbackId)
    (results : List (CallbackId × Outcome)) (connectGen readGen writeGen : ℕ) :
    Inv { s with
      timeouts := timeouts
      nextCallback := cb
      results := results
      socket := { s.socket with connectGen := connectGen, readGen := readGen, writeGen := writeGen }
      } o :=
  ⟨h.wired, h.closed, h.held⟩

/-! ### Steps -/

/-- An operation that is stored and armed if its system call would block. -/
theorem attempt (h : Inv s o) (hu : s.phase.userCode = true) (hfd : s.socket.fd.isSome)
    (d : Direction) {p : Prop} [Decidable p] {s₁ s₂ : SocketState}
    (hs : SameWatch s s₁) (hx : ∀ d', s₁.socket.PendingIn d' → d' = d ∨ s.socket.PendingIn d')
    (h₂ : Inv s₂ o) (hp : p → ∀ d', s.socket.PendingIn d' → d' = d) :
    ∃ o', Inv (if p then s₁.arm d true else s₂) o' := by
  by_cases hb : p
  · rw [if_pos hb]
    exact ⟨_, h.arm hu hfd d hs fun d' hd' => (hx d' hd').elim (fun e => e) (hp hb d')⟩
  · rw [if_neg hb]
    exact ⟨o, h₂⟩

theorem connect (h : Inv s o) (hu : s.phase.userCode = true) (hfd : s.socket.fd.isSome)
    {r : Except Errno Unit}
    (hr : r = .error einprogress → ¬ s.socket.PendingIn .read) :
    ∃ o', Inv (s.connect r true) o' := by
  cases r with
  | ok u => exact ⟨o, h.bump ..⟩
  | error e =>
      refine h.attempt hu hfd .write ⟨rfl, rfl, rfl, rfl, rfl⟩ (fun d hd => ?_) (h.bump ..)
        fun he _ => ?_
      · cases d with
        | read => exact .inr hd
        | write => exact .inl rfl
      · exact SocketPosix.PendingIn.eq_write (hr (by rw [he]))

theorem readIfReady (h : Inv s o) (hu : s.phase.userCode = true) (hfd : s.socket.fd.isSome)
    (hn : ¬ s.socket.PendingIn .write) : ∃ o', Inv (s.readIfReady true) o' := by
  refine ⟨_, h.arm hu hfd .read ⟨rfl, rfl, rfl, rfl, rfl⟩ fun d hd => ?_⟩
  cases d with
  | read => rfl
  | write => exact absurd hd hn

theorem read (h : Inv s o) (len : ℕ) (hu : s.phase.userCode = true) (hfd : s.socket.fd.isSome)
    {r : Except Errno (List UInt8)}
    (hr : r = .error eagain → ¬ s.socket.PendingIn .write) :
    ∃ o', Inv (s.read len r true) o' := by
  cases r with
  | ok bytes => exact ⟨o, h.bump ..⟩
  | error e =>
      refine h.attempt hu hfd .read ⟨rfl, rfl, rfl, rfl, rfl⟩ (fun d hd => ?_) (h.bump ..)
        fun he _ => ?_
      · cases d with
        | read => exact .inl rfl
        | write => exact .inr hd
      · exact SocketPosix.PendingIn.eq_read (hr (by rw [he]))

theorem write (h : Inv s o) (buf : List UInt8) (hu : s.phase.userCode = true)
    (hfd : s.socket.fd.isSome) {r : Except Errno ℕ}
    (hr : r = .error eagain → ¬ s.socket.PendingIn .read) :
    ∃ o', Inv (s.write buf r true) o' := by
  cases r with
  | ok n => exact ⟨o, h.bump ..⟩
  | error e =>
      refine h.attempt hu hfd .write ⟨rfl, rfl, rfl, rfl, rfl⟩ (fun d hd => ?_) (h.bump ..)
        fun he _ => ?_
      · cases d with
        | read => exact .inr hd
        | write => exact .inl rfl
      · exact SocketPosix.PendingIn.eq_write (hr (by rw [he]))

theorem accept (h : Inv s o) (hu : s.phase.userCode = true) (hfd : s.socket.fd.isSome)
    {r : Except Errno Fd}
    (hr : r = .error eagain → ¬ s.socket.PendingIn .write) :
    ∃ o', Inv (s.accept r true) o' := by
  cases r with
  | ok fd => exact ⟨o, h.bump ..⟩
  | error e =>
      refine h.attempt hu hfd .read ⟨rfl, rfl, rfl, rfl, rfl⟩ (fun d hd => ?_) (h.bump ..)
        fun he _ => ?_
      · cases d with
        | read => exact .inl rfl
        | write => exact .inr hd
      · exact SocketPosix.PendingIn.eq_read (hr (by rw [he]))

/-- A read is dropped. -/
theorem dropRead (h : Inv s o) (hu : s.phase.userCode = true) (hn : s.socket.pendingAccept = none) :
    ∃ o', Inv s.cancelRead o' := by
  refine h.stop hu .read ⟨rfl, rfl, rfl, rfl, rfl⟩ fun d hd => ?_
  cases d with
  | read => simp [SocketPosix.PendingIn, hn] at hd
  | write => exact ⟨nofun, hd⟩

theorem dropAccept (h : Inv s o) (hu : s.phase.userCode = true)
    (hn : s.socket.pendingRead = none) : ∃ o', Inv s.cancelAccept o' := by
  refine h.stop hu .read ⟨rfl, rfl, rfl, rfl, rfl⟩ fun d hd => ?_
  cases d with
  | read => simp [SocketPosix.PendingIn, hn] at hd
  | write => exact ⟨nofun, hd⟩

theorem dropWrite (h : Inv s o) (hu : s.phase.userCode = true)
    (hn : s.socket.pendingConnect = none) : ∃ o', Inv s.cancelWrite o' := by
  refine h.stop hu .write ⟨rfl, rfl, rfl, rfl, rfl⟩ fun d hd => ?_
  cases d with
  | read => exact ⟨nofun, hd⟩
  | write => simp [SocketPosix.PendingIn, hn] at hd

theorem close (h : Inv s o) (hu : s.phase.userCode = true) : Inv s.close none where
  wired fd hfd := by cases hfd
  closed _ := rfl
  held := h.held_of hu fun d hd => by
    cases d <;> simp [SocketPosix.PendingIn, SocketState.close] at hd

theorem complete (h : ∃ o, Inv s o) (cb : CallbackId) (r : Outcome) :
    ∃ o, Inv (s.complete cb r) o := by
  obtain ⟨o, h⟩ := h
  exact ⟨o, h.bump ..⟩

theorem scheduleTimeout (h : ∃ o, Inv s o) (timed : Bool) (t : Timeout) :
    ∃ o, Inv (if timed then s.scheduleTimeout t else s) o := by
  obtain ⟨o, h⟩ := h
  cases timed with
  | false => exact ⟨o, h⟩
  | true => exact ⟨o, h.bump ..⟩

theorem fireConnectTimeout (h : Inv s o) (hu : s.phase.userCode = true) {gen : ℕ}
    (hb : s.socket.connectGen = gen → ¬ s.socket.BothPending .write) :
    ∃ o', Inv (s.fireConnectTimeout gen) o' := by
  unfold SocketState.fireConnectTimeout
  split
  · exact ⟨o, h⟩
  · rename_i hg
    split
    · exact ⟨o, h⟩
    · rename_i cb hcb
      apply complete
      refine h.stop hu .write ⟨rfl, rfl, rfl, rfl, rfl⟩ fun d hd => ?_
      cases d with
      | read => exact ⟨nofun, hd⟩
      | write =>
          have hw : s.socket.pendingWrite.isSome := by
            simpa [SocketPosix.PendingIn] using hd
          exact absurd ⟨hw, by rw [hcb]; rfl⟩ (hb (not_not.mp hg))

theorem fireReadTimeout (h : Inv s o) (hu : s.phase.userCode = true) {gen : ℕ}
    (hb : s.socket.readGen = gen → ¬ s.socket.BothPending .read) :
    ∃ o', Inv (s.fireReadTimeout gen) o' := by
  unfold SocketState.fireReadTimeout
  split
  · exact ⟨o, h⟩
  · rename_i hg
    have alone : s.socket.pendingRead.isSome → s.socket.pendingAccept = none := fun hr =>
      Option.not_isSome_iff_eq_none.mp fun ha => hb (not_not.mp hg) ⟨hr, ha⟩
    split
    · exact ⟨o, h⟩
    · rename_i cb hcb
      exact complete (h.dropRead hu (alone (by rw [hcb]; rfl))) ..
    · rename_i len cb hcb
      exact complete (h.dropRead hu (alone (by rw [hcb]; rfl))) ..

theorem fireWriteTimeout (h : Inv s o) (hu : s.phase.userCode = true) {gen : ℕ}
    (hb : s.socket.writeGen = gen → ¬ s.socket.BothPending .write) :
    ∃ o', Inv (s.fireWriteTimeout gen) o' := by
  unfold SocketState.fireWriteTimeout
  split
  · exact ⟨o, h⟩
  · rename_i hg
    split
    · exact ⟨o, h⟩
    · rename_i buf cb hcb
      have hn : s.socket.pendingConnect = none := Option.not_isSome_iff_eq_none.mp fun hc =>
        hb (not_not.mp hg) ⟨by rw [hcb]; rfl, hc⟩
      exact complete (h.dropWrite hu hn) ..

theorem dispatch (h : Inv s o) (hi : s.phase = .idle) {flags : UInt32}
    (hm : ∀ e ∈ s.entry, meets flags e.mode = true) (hr : ¬ s.socket.BothPending .read)
    (hw : ¬ s.socket.BothPending .write) : ∃ o', Inv (s.dispatch flags) o' := by
  unfold SocketState.dispatch
  split
  · exact ⟨o, h⟩
  · rename_i fd hfd
    have wired := h.wired fd hfd
    split
    · exact ⟨o, h⟩
    · rename_i e he
      cases o with
      | none => rw [wired.absent rfl] at he; cases he
      | some d =>
          obtain ⟨g, he', -⟩ := wired.present d rfl
          rw [he'] at he; cases he
          have hmeets := hm _ (by rw [SocketState.entry, hfd]; exact he')
          refine ⟨none, fun fd' hfd' => ?_, fun _ => rfl, ?_⟩
          · rw [hfd] at hfd'; cases hfd'
            exact wired.consume
          · simp only [calls_mode hmeets]
            have held := h.held
            rw [hi] at held
            refine fun d' hd' => ⟨(Option.some.inj (held d' hd')).symm, ?_⟩
            cases d' with
            | read => exact hr
            | write => exact hw

theorem call (h : Inv s o) {c : Call} {cs : List Call} (hp : s.phase = .calling (c :: cs))
    (sys : Syscalls) : Inv { s.call c.direction sys with phase := .inCallback cs } o := by
  have held := h.held
  rw [hp] at held
  cases cs with
  | cons => exact held.elim
  | nil =>
      have same := sameWatch_call s c.direction sys
      refine ⟨fun fd hfd => ?_, fun hn => h.closed (same.fd.symm.trans hn), fun d hd => ?_⟩
      · change Wired (s.call c.direction sys).table (s.call c.direction sys).socket.watcher fd
          (s.call c.direction sys).id o
        rw [same.table, same.watcher, same.id]
        exact h.wired fd (same.fd.symm.trans hfd)
      · -- the call has served the one operation that was pending
        obtain ⟨hd, hboth⟩ := pendingIn_call hd
        obtain ⟨rfl, hb⟩ := held d hd
        exact absurd (hboth rfl) hb

theorem next (h : Inv s o) {a : SocketAct} (ha : s.Enabled a) (hs : a.Registers) (hC : s.Apart a) :
    ∃ o', Inv (s.next a) o' := by
  cases a with
  | connect timed r ok =>
      obtain rfl : ok = true := hs
      exact scheduleTimeout (h.connect ha.1 ha.2 hC) timed _
  | readIfReady timed ok =>
      obtain rfl : ok = true := hs
      exact scheduleTimeout (h.readIfReady ha.1 ha.2 hC) timed _
  | read timed len r ok =>
      obtain rfl : ok = true := hs
      exact scheduleTimeout (h.read len ha.1 ha.2 hC) timed _
  | write timed buf r ok =>
      obtain rfl : ok = true := hs
      exact scheduleTimeout (h.write buf ha.1 ha.2 hC) timed _
  | accept r ok =>
      obtain rfl : ok = true := hs
      exact h.accept ha.1 ha.2 hC
  | cancelAccept => exact h.dropAccept ha hC
  | cancelRead => exact h.dropRead ha hC
  | cancelWrite => exact h.dropWrite ha hC
  | close => exact ⟨none, h.close ha⟩
  | fire t =>
      obtain ⟨kind, gen⟩ := t
      obtain ⟨hi, -⟩ := ha
      have hu : s.phase.userCode = true := by rw [hi]; rfl
      have h' := h.bump (s.timeouts.erase ⟨kind, gen⟩) s.nextCallback s.results
        s.socket.connectGen s.socket.readGen s.socket.writeGen
      cases kind with
      | connect => exact h'.fireConnectTimeout hu hC
      | read => exact h'.fireReadTimeout hu hC
      | write => exact h'.fireWriteTimeout hu hC
  | dispatch flags => exact h.dispatch ha.1 hC.1 hC.2.1 hC.2.2
  | call c cs sys => exact ⟨o, h.call ha sys⟩
  | callDone cs =>
      have held := h.held
      rw [show s.phase = _ from ha] at held
      cases cs with
      | nil => exact ⟨o, h.wired, h.closed, held⟩
      | cons => exact held.elim
  | dispatchDone =>
      have held := h.held
      rw [show s.phase = _ from ha] at held
      exact ⟨o, h.wired, h.closed, held⟩

theorem covered (h : Inv s o) (hi : s.phase = .idle) : s.Covered := by
  intro d hd
  obtain rfl := h.pending (by rw [hi]; rfl) hd
  cases hfd : s.socket.fd with
  | none => cases h.closed hfd
  | some fd =>
      obtain ⟨g, he, -⟩ := (h.wired fd hfd).present d rfl
      exact ⟨_, by rw [SocketState.entry, hfd]; exact he, rfl, d.covers_mode⟩

end Inv

/-! ### Results -/

/-- **Watch coverage.**  In a run whose steps keep the operations apart, every pending operation is
watched whenever no dispatch is in progress. -/
theorem pending_operations_watched
    (h : socketMachine.ReachableBy (fun s a => a.Registers ∧ s.Apart a) s) (hi : s.phase = .idle) :
    s.Covered := by
  have inv : ∃ o, Inv s o := by
    refine h.invariant (I := fun s => ∃ o, Inv s o) ?_ ?_
    · rintro s ⟨fd, id, table, ht, rfl⟩
      exact ⟨none, .init fd id ht⟩
    · rintro s a - ⟨o, h⟩ ⟨hs, hC⟩ ha
      exact h.next ha hs hC
  obtain ⟨o, inv⟩ := inv
  exact inv.covered hi

/-- A read with a timeout waits and is served; its callback writes, which has to wait. -/
def turnRun : List SocketAct :=
  [.read true 64 (.error eagain) true, .dispatch epollIn,
    .call ⟨5, 1, 0, .read⟩ [] ⟨.error eagain, .ok [1, 2], .error eagain, .ok ()⟩,
    .write false [1, 2] (.error eagain) true, .callDone [], .dispatchDone, .fire ⟨.read, 1⟩]

theorem turnRun_covered :
    let s := socketMachine.runList (.init 5 1 .new) turnRun
    s.socket.pendingWrite.isSome ∧ s.Covered := by
  refine ⟨by decide +kernel, pending_operations_watched ?_ (by decide +kernel)⟩
  exact .of_follows ⟨5, 1, .new, rfl, rfl⟩ (by decide +kernel)

/-- Runs on a socket in which operations get in each other's way: a read and a write that both
wait; a connect and a notification that both wait; a read and an accept of which one is cancelled,
times out or is served; a connect and a write likewise; and an event for reading that is handled
after the read was cancelled and a write started. -/
def overlapRuns : List (List SocketAct) :=
  let connect := .connect true (.error einprogress) true
  let ready := .readIfReady true true
  let write := .write true [7] (.error eagain) true
  let accept := .accept (.error eagain) true
  let sys : Syscalls := ⟨.ok 9, .ok [7], .ok 1, .ok ()⟩
  [[.read false 64 (.error eagain) true, write],
    [connect, ready],
    [accept, ready, .cancelRead],
    [ready, accept, .cancelAccept],
    [accept, ready, .fire ⟨.read, 1⟩],
    [accept, ready, .dispatch epollIn, .call ⟨5, 1, 1, .read⟩ [] sys, .callDone [], .dispatchDone],
    [connect, write, .cancelWrite],
    [connect, write, .fire ⟨.connect, 1⟩],
    [connect, write, .fire ⟨.write, 1⟩],
    [connect, write, .dispatch epollOut, .call ⟨5, 1, 1, .write⟩ [] sys, .callDone [],
      .dispatchDone],
    [ready, .cancelRead, write, .dispatch epollIn, .dispatchDone]]

/-- The run, on a fresh socket and with registrations that succeed, leaves a pending operation
without a watch, outside of any dispatch. -/
def LosesWatch (run : List SocketAct) : Prop :=
  let s := socketMachine.runList (.init 5 1 .new) run
  socketMachine.ReachableBy (fun _ a => a.Registers) s ∧ s.phase = .idle ∧ ¬ s.Covered

/-- **The conditions are needed.** -/
theorem overlapRuns_lose_watch : overlapRuns.Forall LosesWatch := by
  rw [List.forall_iff_forall_mem]
  intro run hrun
  have follows : ∀ run ∈ overlapRuns,
      socketMachine.Follows (fun _ a => a.Registers) (.init 5 1 .new) run := by decide +kernel
  have lost : ∀ run ∈ overlapRuns,
      let s := socketMachine.runList (.init 5 1 .new) run
      s.phase = .idle ∧ ¬ s.Covered := by decide +kernel
  exact ⟨.of_follows ⟨5, 1, .new, rfl, rfl⟩ (follows run hrun), lost run hrun⟩

end SocketState

end RustNet
