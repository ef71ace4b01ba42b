import RustBase.Io.EpollPump

/-!
# Io — watch controllers

`FdWatchController` and `watch_file_descriptor` as code on the IO thread runs them: a call of
`register_fd` or `unregister_fd` is one step there.

An object that waits for both directions of a descriptor keeps two controllers, while the pump keeps
one entry for each descriptor.  `Wired` says how these go together: the entry, if there is one, was
made through the controller of the direction it is for, and the generation the other controller
may still have is not that of the entry.  So stopping a controller removes the entry exactly when
the entry is for its direction (`Wired.stop`), and watching through a controller leaves an entry for
its direction only (`Wired.watch`).
-/

namespace RustIo

/-- The descriptor and the generation of the watch, while the controller has its `pump`. -/
structure FdWatchController where
  watch : Option (Fd × ℕ)
  deriving DecidableEq

namespace WatchTable

/-- `register_fd`; `ok` says whether `epoll_ctl` succeeds. -/
def registerFd (t : WatchTable) (fd : Fd) (persistent : Bool) (mode : WatchMode)
    (watcher : WatcherId) (ok : Bool) : WatchTable × Option ℕ :=
  let generation := t.generationCounter
  let t := { t with generationCounter := generation + 1 }
  if ok then (t.insert fd ⟨watcher, persistent, mode, generation⟩, some generation) else (t, none)

def unregisterFd (t : WatchTable) (fd : Fd) (generation : ℕ) : WatchTable × Bool :=
  if t.Matches fd generation then (t.remove fd, true) else (t, false)

end WatchTable

namespace FdWatchController

def new : FdWatchController := ⟨none⟩

def attach (fd : Fd) (generation : ℕ) : FdWatchController := ⟨some (fd, generation)⟩

def stopWatchingFileDescriptor (c : FdWatchController) (t : WatchTable) :
    FdWatchController × WatchTable × Bool :=
  match c.watch with
  | none => (c, t, false)
  | some (fd, generation) => (new, t.unregisterFd fd generation)

/-- `IoTaskRunner::watch_file_descriptor`. -/
def watchFileDescriptor (c : FdWatchController) (t : WatchTable) (fd : Fd) (persistent : Bool)
    (mode : WatchMode) (watcher : WatcherId) (ok : Bool) : FdWatchController × WatchTable × Bool :=
  let (c, t, _) := c.stopWatchingFileDescriptor t
  match t.registerFd fd persistent mode watcher ok with
  | (t, some generation) => (attach fd generation, t, true)
  | (t, none) => (c, t, false)

@[simp] theorem watch_stop (c : FdWatchController) (t : WatchTable) :
    (c.stopWatchingFileDescriptor t).1 = new := by
  obtain ⟨w⟩ := c
  cases w <;> rfl

@[simp] theorem generationCounter_stop (c : FdWatchController) (t : WatchTable) :
    (c.stopWatchingFileDescriptor t).2.1.generationCounter = t.generationCounter := by
  obtain ⟨w⟩ := c
  cases w with
  | none => rfl
  | some p => simp only [stopWatchingFileDescriptor, WatchTable.unregisterFd]; split <;> rfl

/-- A registration that succeeds leaves its entry. -/
theorem watches_watch (c : FdWatchController) (t : WatchTable) (fd : Fd) (persistent : Bool)
    (mode : WatchMode) (watcher : WatcherId) :
    ∃ g, (c.watchFileDescriptor t fd persistent mode watcher true).2.1.watches fd =
      some ⟨watcher, persistent, mode, g⟩ :=
  ⟨_, Function.update_self ..⟩

end FdWatchController

/-- The mode that asks for the direction alone. -/
def Direction.mode : Direction → WatchMode
  | .read => .read
  | .write => .write

theorem Direction.covers_mode (d : Direction) : d.mode.covers d = true := by cases d <;> rfl

/-- The entry of `fd` in the table, which is for `o`, and the controllers of the two directions. -/
structure Wired (t : WatchTable) (c : Direction → FdWatchController) (fd : Fd) (me : WatcherId)
    (o : Option Direction) : Prop where
  absent : o = none → t.watches fd = none
  present : ∀ d, o = some d →
    ∃ g, t.watches fd = some ⟨me, false, d.mode, g⟩ ∧ (c d).watch = some (fd, g)
  fresh : ∀ d p, (c d).watch = some p → p.1 = fd ∧ p.2 < t.generationCounter
  apart : ∀ d₁ d₂ p, (c d₁).watch = some p → (c d₂).watch = some p → d₁ = d₂

namespace Wired

variable {t : WatchTable} {c : Direction → FdWatchController} {fd : Fd} {me : WatcherId}
  {o : Option Direction}

theorem init (ht : t.watches fd = none) (hc : ∀ d, (c d).watch = none) :
    Wired t c fd me none where
  absent _ := ht
  present _ h := by cases h
  fresh d p h := by rw [hc] at h; cases h
  apart d _ p h := by rw [hc] at h; cases h

/-- The controllers that are attached after one has been stopped were so before. -/
theorem watch_update {d d' : Direction} {p : Fd × ℕ}
    (h : (Function.update c d .new d').watch = some p) : d' ≠ d ∧ (c d').watch = some p := by
  by_cases hd : d' = d
  · subst hd; rw [Function.update_self] at h; cases h
  · rw [Function.update_of_ne hd] at h; exact ⟨hd, h⟩

/-- The generation a controller is attached with is the entry's exactly if the entry is for its
direction. -/
theorem matches_iff (h : Wired t c fd me o) {d : Direction} {g : ℕ}
    (hd : (c d).watch = some (fd, g)) : t.Matches fd g ↔ o = some d := by
  constructor
  · rintro ⟨e, he, hg⟩
    cases o with
    | none => rw [h.absent rfl] at he; cases he
    | some d' =>
        obtain ⟨g', he', hd'⟩ := h.present d' rfl
        rw [he'] at he; cases he
        change g' = g at hg
        subst hg
        rw [h.apart d' d _ hd' hd]
  · rintro rfl
    obtain ⟨g', he', hd'⟩ := h.present d rfl
    rw [hd] at hd'; cases hd'
    exact ⟨_, he', rfl⟩

/-- Stopping a controller removes the entry if it is for the controller's direction. -/
theorem stop (h : Wired t c fd me o) (d : Direction) :
    Wired ((c d).stopWatchingFileDescriptor t).2.1 (Function.update c d .new) fd me
      (if o = some d then none else o) := by
  have fresh' : ∀ d' p, (Function.update c d .new d').watch = some p →
      p.1 = fd ∧ p.2 < ((c d).stopWatchingFileDescriptor t).2.1.generationCounter := by
    intro d' p hp
    rw [FdWatchController.generationCounter_stop]
    exact h.fresh d' p (watch_update hp).2
  have apart' : ∀ d₁ d₂ p, (Function.update c d .new d₁).watch = some p →
      (Function.update c d .new d₂).watch = some p → d₁ = d₂ :=
    fun d₁ d₂ p h₁ h₂ => h.apart d₁ d₂ p (watch_update h₁).2 (watch_update h₂).2
  by_cases ho : o = some d
  · rw [if_pos ho]
    obtain ⟨g, -, hg⟩ := h.present d ho
    refine ⟨fun _ => ?_, nofun, fresh', apart'⟩
    simp only [FdWatchController.stopWatchingFileDescriptor, hg, WatchTable.unregisterFd,
      if_pos ((h.matches_iff hg).mpr ho)]
    exact Function.update_self fd none t.watches
  · rw [if_neg ho]
    have same : ((c d).stopWatchingFileDescriptor t).2.1 = t := by
      cases hg : (c d).watch with
      | none => simp only [FdWatchController.stopWatchingFileDescriptor, hg]
      | some p =>
          obtain ⟨rfl, -⟩ := h.fresh d p hg
          have hn : ¬ t.Matches p.1 p.2 := fun hm => ho ((h.matches_iff hg).mp hm)
          simp only [FdWatchController.stopWatchingFileDescriptor, hg, WatchTable.unregisterFd,
            if_neg hn]
    refine ⟨fun hn => ?_, fun d' hd' => ?_, fresh', apart'⟩
    · rw [same]; exact h.absent hn
    · obtain ⟨g, he, hg⟩ := h.present d' hd'
      have hne : d' ≠ d := fun e => ho (e ▸ hd')
      exact ⟨g, by rw [same]; exact he, by rw [Function.update_of_ne hne]; exact hg⟩

/-- A registration through the controller of `d` leaves an entry for `d`. -/
theorem watch (h : Wired t c fd me o) (d : Direction) :
    Wired ((c d).watchFileDescriptor t fd false d.mode me true).2.1
      (Function.update c d ((c d).watchFileDescriptor t fd false d.mode me true).1) fd me
      (some d) := by
  have hs := h.stop d
  set t' := ((c d).stopWatchingFileDescriptor t).2.1 with ht'
  -- the controller that is not used keeps a generation given out before
  have other : ∀ d' p, d' ≠ d → (Function.update c d (.attach fd t'.generationCounter) d').watch
      = some p → p.1 = fd ∧ p.2 < t'.generationCounter := by
    intro d' p hne hp
    rw [Function.update_of_ne hne] at hp
    exact hs.fresh d' p (by rw [Function.update_of_ne hne]; exact hp)
  have self : (Function.update c d (.attach fd t'.generationCounter) d).watch =
      some (fd, t'.generationCounter) := by rw [Function.update_self]; rfl
  change Wired (({ t' with generationCounter := t'.generationCounter + 1 } : WatchTable).insert fd
    ⟨me, false, d.mode, t'.generationCounter⟩)
    (Function.update c d (.attach fd t'.generationCounter)) fd me (some d)
  refine ⟨nofun, fun d' hd' => ?_, fun d' p hp => ?_, fun d₁ d₂ p h₁ h₂ => ?_⟩
  · cases hd'
    exact ⟨_, Function.update_self fd _ t'.watches, self⟩
  · change p.1 = fd ∧ p.2 < t'.generationCounter + 1
    by_cases hne : d' = d
    · subst hne
      rw [self] at hp; cases hp
      exact ⟨rfl, by omega⟩
    · obtain ⟨h₁, h₂⟩ := other d' p hne hp
      exact ⟨h₁, by omega⟩
  · by_cases e₁ : d₁ = d <;> by_cases e₂ : d₂ = d
    · rw [e₁, e₂]
    · subst e₁
      rw [self] at h₁; cases h₁
      exact absurd (other d₂ _ e₂ h₂).2 (Nat.lt_irrefl _)
    · subst e₂
      rw [self] at h₂; cases h₂
      exact absurd (other d₁ _ e₁ h₁).2 (Nat.lt_irrefl _)
    · rw [Function.update_of_ne e₁] at h₁
      rw [Function.update_of_ne e₂] at h₂
      exact h.apart d₁ d₂ p h₁ h₂

/-- The dispatch loop removes the entry. -/
theorem consume (h : Wired t c fd me o) : Wired (t.remove fd) c fd me none where
  absent _ := by simp only [WatchTable.remove, Function.update_self]
  present _ hd := by cases hd
  fresh := h.fresh
  apart := h.apart

end Wired

end RustIo
