import RustBase.Net.SocketLife

/-!
# Net — one descriptor at a time

The descriptors a `SocketPosix` got from `socket(2)`, or adopted, and has not closed are the one in
its field `fd`, if there is one (`Owns`).  `close` and the drop give that one to `close(2)` and
leave none.  `open` stores the new descriptor without a look at the field, so a socket that has one
loses it: nothing closes it any more.

`TcpClientSocket::connect` opens at every attempt, and a failed or timed out one leaves the
descriptor in the field; so does `TcpServerSocket::listen` when a later call fails.
`owns_until_leak` says that the socket owns its descriptor until it is opened with one in its field,
and that every such step loses one.
-/

namespace RustNet
open Support RustIo

/-! ### The field -/

namespace SocketState

variable (s : SocketState)

theorem fd_arm (d : Direction) (ok : Bool) : (s.arm d ok).socket.fd = s.socket.fd := by
  unfold arm
  cases hfd : s.socket.fd with
  | none => exact hfd
  | some fd => exact (SocketPosix.fd_setWatcher ..).trans hfd

theorem fd_stop (d : Direction) : (s.stop d).socket.fd = s.socket.fd :=
  SocketPosix.fd_setWatcher ..

theorem fd_fire (t : Timeout) : (s.fire t).socket.fd = s.socket.fd := by
  unfold fire
  cases t.kind with
  | connect =>
      simp only [fireConnectTimeout]
      split
      · rfl
      · split
        · rfl
        · exact fd_stop ..
  | read =>
      simp only [fireReadTimeout]
      split
      · rfl
      · split
        · rfl
        · exact fd_stop ..
        · exact fd_stop ..
  | write =>
      simp only [fireWriteTimeout]
      split
      · rfl
      · split
        · rfl
        · exact fd_stop ..

/-- Only `close` touches the field. -/
theorem fd_next (a : SocketAct) :
    (s.next a).socket.fd = if a.closes then none else s.socket.fd := by
  cases a with
  | connect timed r ok =>
      have h : (s.connect r ok).socket.fd = s.socket.fd := by
        unfold connect
        cases r with
        | ok u => rfl
        | error e => dsimp only; split <;> [exact fd_arm ..; rfl]
      cases timed <;> exact h
  | readIfReady timed ok => cases timed <;> exact fd_arm ..
  | read timed len r ok =>
      have h : (s.read len r ok).socket.fd = s.socket.fd := by
        unfold read
        cases r with
        | ok bytes => rfl
        | error e => dsimp only; split <;> [exact fd_arm ..; rfl]
      cases timed <;> exact h
  | write timed buf r ok =>
      have h : (s.write buf r ok).socket.fd = s.socket.fd := by
        unfold write
        cases r with
        | ok n => rfl
        | error e => dsimp only; split <;> [exact fd_arm ..; rfl]
      cases timed <;> exact h
  | accept r ok =>
      simp only [next, accept]
      cases r with
      | ok fd => rfl
      | error e => dsimp only; split <;> [exact fd_arm ..; rfl]
  | cancelAccept | cancelRead | cancelWrite => exact fd_stop ..
  | close => rfl
  | fire t => exact fd_fire _ t
  | dispatch flags =>
      simp only [next, dispatch]
      split
      · rfl
      · split <;> rfl
  | call c cs sys =>
      cases h : c.direction with
      | read =>
          simp only [next, call, h, onFileCanReadWithoutBlocking]
          split
          · rfl
          · split <;> rfl
      | write =>
          simp only [next, call, h, onFileCanWriteWithoutBlocking]
          split
          · rfl
          · split <;> rfl
  | callDone cs | dispatchDone => rfl

end SocketState

/-! ### What becomes of a descriptor -/

@[ext] structure Held where
  obtained : List Fd
  closed : List Fd
  fd : Option Fd

inductive HeldAct where
  | acquire (fd : Fd)
  | close
  | idle

namespace Held

variable {x : Held} {a : HeldAct}

def next (x : Held) : HeldAct → Held
  | .acquire fd => { x with obtained := x.obtained ++ [fd], fd := some fd }
  | .close => { x with closed := x.closed ++ x.fd.toList, fd := none }
  | .idle => x

/-- The descriptors obtained are those closed, each once, and the one in the field. -/
def Owns (x : Held) : Prop := x.obtained.Perm (x.closed ++ x.fd.toList)

/-- A descriptor is obtained while there is one. -/
def Leaks (x : Held) : HeldAct → Prop
  | .acquire _ => x.fd.isSome
  | _ => False

instance (x : Held) : ∀ a, Decidable (x.Leaks a)
  | .acquire _ => inferInstanceAs (Decidable (_ = _))
  | .close | .idle => inferInstanceAs (Decidable False)

theorem Owns.next_iff (h : x.Owns) : (x.next a).Owns ↔ ¬ x.Leaks a := by
  cases a with
  | acquire fd =>
      have hp : (x.next (.acquire fd)).Owns ↔ x.obtained.Perm x.closed :=
        List.perm_append_right_iff [fd]
      rw [hp]
      constructor
      · -- both lists have the same length as before the step, less the descriptor in the field
        intro hc hl
        obtain ⟨old, hf⟩ := Option.isSome_iff_exists.mp hl
        have := (hc.symm.trans h).length_eq
        simp [hf] at this
      · intro hl
        have hf : x.fd = none := by
          by_contra hf
          exact hl (Option.isSome_iff_ne_none.mpr hf)
        have h' := h
        rw [Owns, hf] at h'
        simpa using h'
  | close => exact iff_of_true (by simpa [Owns, next] using h) id
  | idle => exact iff_of_true h id

end Held

/-! ### The socket -/

namespace LifeAct

/-- What `socket(2)` has answered. -/
def obtained : Except Errno Fd → HeldAct
  | .ok fd => .acquire fd
  | .error _ => .idle

/-- What a step is to the descriptors. -/
def held : LifeAct → HeldAct
  | .op a => if a.closes then .close else .idle
  | .openSocket o | .tcpConnect _ o _ _ | .tcpListen o _ _ _ => obtained o
  | .bind _ | .listen _ | .dispatchOld _ _ => .idle
  | .drop => .close

end LifeAct

namespace SocketLife

variable {s : SocketLife}

def held (s : SocketLife) : Held where
  obtained := s.obtained
  closed := s.closed
  fd := s.fd

theorem held_apply (s : SocketLife) (a : SocketAct) :
    (s.apply a).held = s.held.next (if a.closes then .close else .idle) := by
  have hf : (s.apply a).fd = if a.closes then none else s.fd := s.state.fd_next a
  cases hc : a.closes <;> rw [hc] at hf
  · exact Held.ext rfl (by simp [held, apply, hc]; rfl) hf
  · exact Held.ext rfl (by simp [held, apply, hc]; rfl) hf

theorem held_openSocket (s : SocketLife) (o : Except Errno Fd) :
    (s.openSocket o).held = s.held.next (LifeAct.obtained o) := by
  cases o <;> rfl

theorem held_next (s : SocketLife) (a : LifeAct) : (s.next a).held = s.held.next a.held := by
  cases a with
  | op a => exact s.held_apply a
  | openSocket o => exact s.held_openSocket o
  | bind r | listen r => rfl
  | tcpConnect timed o r ok =>
      cases o with
      | error e => rfl
      | ok fd =>
          exact ((s.openSocket (.ok fd)).held_apply (.connect timed r ok)).trans
            (s.held_openSocket (.ok fd))
  | tcpListen o options bound listening =>
      exact (congrArg held (s.tcpListen_eq o options bound listening)).trans (s.held_openSocket o)
  | dispatchOld fd flags =>
      simp only [next, dispatchOld]
      split <;> rfl
  | drop => exact s.held_apply .close

/-- The socket gets a descriptor while it has one. -/
def Leaks (s : SocketLife) (a : LifeAct) : Prop := s.held.Leaks a.held

instance (s : SocketLife) (a : LifeAct) : Decidable (s.Leaks a) :=
  inferInstanceAs (Decidable (s.held.Leaks _))

theorem owns_init (h : lifeMachine.Init s) : s.held.Owns := by
  obtain ⟨id, table, rfl | ⟨fd, rfl⟩⟩ := h <;> exact .refl _

theorem owns_next_iff (h : s.held.Owns) (a : LifeAct) : (s.next a).held.Owns ↔ ¬ s.Leaks a := by
  rw [held_next]
  exact h.next_iff

/-- **One descriptor.**  As long as the socket is not opened while it has a descriptor, the
descriptors it got and has not closed are the one in its field, and it closes each of them once; and
a step that opens it then loses one. -/
theorem owns_until_leak (h : lifeMachine.ReachableBy (fun s a => ¬ s.Leaks a) s) :
    s.held.Owns ∧ ∀ a, s.Enabled a → ((s.next a).held.Owns ↔ ¬ s.Leaks a) := by
  have owns : s.held.Owns :=
    h.invariant (I := fun s => s.held.Owns) (fun s hi => owns_init hi)
      fun s a _ hi hl _ => (owns_next_iff hi a).mpr hl
  exact ⟨owns, fun a _ => owns_next_iff owns a⟩

/-- A connect that fails, another one after `close`, and the drop. -/
def reopenRun : List LifeAct :=
  [.tcpConnect false (.ok 5) (.error 111) true, .op .close,
   .tcpConnect true (.ok 5) (.error einprogress) true, .drop]

theorem reopenRun_owns :
    (lifeMachine.runList (.new 1 .new) reopenRun).held.Owns ∧
      ∀ a, (lifeMachine.runList (.new 1 .new) reopenRun).Enabled a →
        (((lifeMachine.runList (.new 1 .new) reopenRun).next a).held.Owns ↔
          ¬ (lifeMachine.runList (.new 1 .new) reopenRun).Leaks a) :=
  owns_until_leak (.of_follows ⟨1, .new, .inl rfl⟩ (by decide))

/-- `TcpClientSocket::connect` again after a refused one, `TcpServerSocket::listen` again after a
`bind` that failed: the first descriptor is still open after the drop. -/
theorem leaked_descriptors :
    (lifeMachine.Follows (fun _ _ => True) (.new 1 .new)
        [.tcpConnect false (.ok 5) (.error 111) true, .tcpConnect false (.ok 6) (.ok ()) true,
          .drop] ∧
      (lifeMachine.runList (.new 1 .new)
        [.tcpConnect false (.ok 5) (.error 111) true, .tcpConnect false (.ok 6) (.ok ()) true,
          .drop]).held = ⟨[5, 6], [6], none⟩) ∧
    (lifeMachine.Follows (fun _ _ => True) (.new 1 .new)
        [.tcpListen (.ok 5) (.ok ()) (.error 98) (.ok ()),
          .tcpListen (.ok 6) (.ok ()) (.ok ()) (.ok ()), .drop] ∧
      (lifeMachine.runList (.new 1 .new)
        [.tcpListen (.ok 5) (.ok ()) (.error 98) (.ok ()),
          .tcpListen (.ok 6) (.ok ()) (.ok ()) (.ok ()), .drop]).held = ⟨[5, 6], [6], none⟩) ∧
    ¬ (⟨[5, 6], [6], none⟩ : Held).Owns := by
  refine ⟨⟨by decide, rfl⟩, ⟨by decide, rfl⟩, fun h => ?_⟩
  exact absurd h.length_eq (by decide)

end SocketLife

end RustNet
