import RustBase.Io.WatchController
import RustBase.Support.Machine

/-!
# Io — many controllers over one table

Any number of `FdWatchController`s on the IO thread, each watching, stopping and being dropped at
any time, over descriptors that are closed and given out again; the dispatch loop removes one-shot
entries in between.  A controller keeps the descriptor and the generation of its watch after the
entry is gone, and several controllers may watch the same descriptor.

The registrations that succeed are numbered in their order; `lastOn fd` is the last one for `fd`,
which made the entry of `fd` if there is one, and `lastOf c` is the last one made through `c`.
These are history variables and know nothing of generations.

* `Linked`: generations tell the registrations apart, and what a controller remembers is its own
  last one.
* **`stop_removes_own`**: stopping or dropping a controller takes away the entry that its own last
  registration made, and touches no other.
-/

namespace RustIo
open Support

/-- An `FdWatchController`, by its address. -/
abbrev ControllerId := ℕ

/-- The dispatch loop handles an event of `fd`: a one-shot entry goes. -/
def WatchTable.consume (t : WatchTable) (fd : Fd) : WatchTable :=
  match t.watches fd with
  | some e => if e.persistent then t else t.remove fd
  | none => t

structure WatchState where
  table : WatchTable
  isOpen : Fd → Bool
  controllers : ControllerId → Option FdWatchController
  /-- how many registrations have succeeded -/
  count : ℕ
  lastOn : Fd → Option ℕ
  lastOf : ControllerId → Option ℕ

inductive WatchAct where
  | create (c : ControllerId)
  | watch (c : ControllerId) (fd : Fd) (persistent : Bool) (mode : WatchMode)
      (watcher : WatcherId) (ok : Bool)
  | stop (c : ControllerId)
  | drop (c : ControllerId)
  | dispatch (fd : Fd)
  | openFd (fd : Fd)
  | closeFd (fd : Fd)
  deriving DecidableEq

namespace WatchState

def new (isOpen : Fd → Bool) : WatchState where
  table := .new
  isOpen := isOpen
  controllers := fun _ => none
  count := 0
  lastOn := fun _ => none
  lastOf := fun _ => none

def Enabled (s : WatchState) : WatchAct → Prop
  | .create c => s.controllers c = none
  | .watch c fd _ _ _ ok => (s.controllers c).isSome = true ∧ (ok = true → s.isOpen fd = true)
  | .stop c | .drop c => (s.controllers c).isSome = true
  | .dispatch _ => True
  | .openFd fd => s.isOpen fd = false
  | .closeFd fd => s.isOpen fd = true

instance (s : WatchState) : ∀ a, Decidable (s.Enabled a)
  | .create _ | .stop _ | .drop _ | .openFd _ | .closeFd _ => inferInstanceAs (Decidable (_ = _))
  | .watch _ _ _ _ _ _ => inferInstanceAs (Decidable (_ ∧ (_ → _)))
  | .dispatch _ => inferInstanceAs (Decidable True)

/-- The table after `stop_watching_file_descriptor` on `c`, which `Drop` calls too. -/
def stopped (s : WatchState) (c : ControllerId) : WatchTable :=
  ((s.controllers c).getD .new |>.stopWatchingFileDescriptor s.table).2.1

def watch (s : WatchState) (c : ControllerId) (fd : Fd) (persistent : Bool) (mode : WatchMode)
    (watcher : WatcherId) (ok : Bool) : WatchState :=
  let (x, table, done) := ((s.controllers c).getD .new).watchFileDescriptor s.table fd persistent
    mode watcher ok
  let s := { s with table := table, controllers := Function.update s.controllers c (some x) }
  if done then
    { s with
      count := s.count + 1
      lastOn := Function.update s.lastOn fd (some s.count)
      lastOf := Function.update s.lastOf c (some s.count) }
  else s

def next (s : WatchState) : WatchAct → WatchState
  | .create c =>
      { s with
        controllers := Function.update s.controllers c (some .new)
        lastOf := Function.update s.lastOf c none }
  | .watch c fd persistent mode watcher ok => s.watch c fd persistent mode watcher ok
  | .stop c =>
      { s with
        table := s.stopped c
        controllers := Function.update s.controllers c (some .new) }
  | .drop c =>
      { s with
        table := s.stopped c
        controllers := Function.update s.controllers c none }
  | .dispatch fd => { s with table := s.table.consume fd }
  | .openFd fd => { s with isOpen := Function.update s.isOpen fd true }
  | .closeFd fd => { s with isOpen := Function.update s.isOpen fd false }

end WatchState

/-- The controllers of an IO thread, with any descriptors open at the start. -/
def watchMachine : Machine WatchState WatchAct where
  Init := fun s => ∃ isOpen, s = .new isOpen
  Enabled := WatchState.Enabled
  next := WatchState.next

instance : ∀ s a, Decidable (watchMachine.Enabled s a) :=
  fun s a => inferInstanceAs (Decidable (s.Enabled a))

namespace WatchState

variable {s s' : WatchState}

/-- The watch a controller remembers. -/
def memory (s : WatchState) (c : ControllerId) : Option (Fd × ℕ) :=
  ((s.controllers c).getD .new).watch

/-- The entry of `fd` is the one that the last registration through `c` made. -/
def Owns (s : WatchState) (c : ControllerId) (fd : Fd) : Prop :=
  ∃ n, s.lastOf c = some n ∧ s.lastOn fd = some n

/-- `gen n` is the generation of the registration `n`. -/
structure Linked (s : WatchState) (gen : ℕ → ℕ) : Prop where
  below : ∀ n < s.count, gen n < s.table.generationCounter
  distinct : ∀ m < s.count, ∀ n < s.count, gen m = gen n → m = n
  on_lt : ∀ fd n, s.lastOn fd = some n → n < s.count
  of_lt : ∀ c n, s.lastOf c = some n → n < s.count
  on_unique : ∀ fd fd' n, s.lastOn fd = some n → s.lastOn fd' = some n → fd = fd'
  entry : ∀ fd e, s.table.watches fd = some e → ∃ n, s.lastOn fd = some n ∧ gen n = e.generation
  memory : ∀ c fd g, s.memory c = some (fd, g) → ∃ n, s.lastOf c = some n ∧ gen n = g ∧
    ∀ fd', s.lastOn fd' = some n → fd' = fd
  owner : ∀ c fd, s.Owns c fd → s.table.watches fd ≠ none → ∃ g, s.memory c = some (fd, g)

namespace Linked

variable {gen : ℕ → ℕ}

/-- The generation a controller remembers is that of an entry exactly if its last registration made
the entry. -/
theorem matches_iff (h : Linked s gen) {c : ControllerId} {fd : Fd} {g : ℕ}
    (hm : s.memory c = some (fd, g)) :
    s.table.Matches fd g ↔ s.Owns c fd ∧ s.table.watches fd ≠ none := by
  obtain ⟨n, hof, rfl, hon⟩ := h.memory c fd g hm
  constructor
  · rintro ⟨e, he, hg⟩
    obtain ⟨m, hm', hgm⟩ := h.entry fd e he
    have hmn : m = n := h.distinct m (h.on_lt fd m hm') n (h.of_lt c n hof) (hgm.trans hg)
    exact ⟨⟨n, hof, hmn ▸ hm'⟩, by simp [he]⟩
  · rintro ⟨⟨n', hof', hon'⟩, hne⟩
    obtain ⟨e, he⟩ := Option.ne_none_iff_exists'.mp hne
    obtain ⟨m, hm', hgm⟩ := h.entry fd e he
    have hn : n' = n := Option.some.inj (hof'.symm.trans hof)
    have hmn : m = n := hn ▸ Option.some.inj (hm'.symm.trans hon')
    exact ⟨e, he, hmn ▸ hgm.symm⟩

/-- Stopping a controller takes the entry of its own last registration, and nothing else. -/
theorem watches_stopped (h : Linked s gen) (c : ControllerId) (fd : Fd) :
    (s.Owns c fd → (s.stopped c).watches fd = none) ∧
    (¬ s.Owns c fd → (s.stopped c).watches fd = s.table.watches fd) := by
  cases hm : s.memory c with
  | none =>
      have same : s.stopped c = s.table := by
        simp only [stopped, FdWatchController.stopWatchingFileDescriptor,
          show ((s.controllers c).getD .new).watch = none from hm]
      rw [same]
      refine ⟨fun ho => ?_, fun _ => rfl⟩
      by_contra hne
      obtain ⟨g, hg⟩ := h.owner c fd ho hne
      rw [hm] at hg
      cases hg
  | some p =>
      obtain ⟨fd₀, g⟩ := p
      obtain ⟨n, hof, -, hon⟩ := h.memory c fd₀ g hm
      -- an entry that `c` owns is the one it remembers
      have here : s.Owns c fd → fd = fd₀ := by
        rintro ⟨n', hof', hon'⟩
        exact hon fd (Option.some.inj (hof'.symm.trans hof) ▸ hon')
      have stop_eq : s.stopped c = (s.table.unregisterFd fd₀ g).1 := by
        simp only [stopped, FdWatchController.stopWatchingFileDescriptor,
          show ((s.controllers c).getD .new).watch = some (fd₀, g) from hm]
      by_cases hmatch : s.table.Matches fd₀ g
      · rw [stop_eq, WatchTable.unregisterFd, if_pos hmatch]
        refine ⟨fun ho => ?_, fun ho => ?_⟩
        · rw [here ho]
          exact Function.update_self ..
        · have hne : fd ≠ fd₀ := by
            rintro rfl
            exact ho ((h.matches_iff hm).mp hmatch).1
          exact Function.update_of_ne hne ..
      · rw [stop_eq, WatchTable.unregisterFd, if_neg hmatch]
        refine ⟨fun ho => ?_, fun _ => rfl⟩
        by_contra hne
        obtain rfl := here ho
        exact hmatch ((h.matches_iff hm).mpr ⟨ho, hne⟩)

theorem init (isOpen : Fd → Bool) : Linked (.new isOpen) gen where
  below _ hn := by cases hn
  distinct _ hm := by cases hm
  on_lt _ _ h := by cases h
  of_lt _ _ h := by cases h
  on_unique _ _ _ h := by cases h
  entry _ _ h := by cases h
  memory _ _ _ h := by cases h
  owner _ _ h := by obtain ⟨_, h, _⟩ := h; cases h

/-- Entries go, and controllers forget; a controller whose entry stays remembers it. -/
theorem shrink (h : Linked s gen)
    (hg : s.table.generationCounter ≤ s'.table.generationCounter) (hc : s'.count = s.count)
    (hon : s'.lastOn = s.lastOn) (hof : s'.lastOf = s.lastOf)
    (hw : ∀ fd e, s'.table.watches fd = some e → s.table.watches fd = some e)
    (hm : ∀ c p, s'.memory c = some p → s.memory c = some p)
    (hk : ∀ c fd, s.Owns c fd → s'.table.watches fd ≠ none → s'.memory c = s.memory c) :
    Linked s' gen := by
  refine ⟨fun n hn => ?_, fun m hm' n hn => ?_, ?_, ?_, ?_, fun fd e he => ?_, fun c fd g hc' => ?_,
    fun c fd ho hne => ?_⟩
  · exact Nat.lt_of_lt_of_le (h.below n (hc ▸ hn)) hg
  · exact h.distinct m (hc ▸ hm') n (hc ▸ hn)
  · rw [hon, hc]; exact h.on_lt
  · rw [hof, hc]; exact h.of_lt
  · rw [hon]; exact h.on_unique
  · rw [hon]; exact h.entry fd e (hw fd e he)
  · rw [hof, hon]; exact h.memory c fd g (hm c _ hc')
  · have ho' : s.Owns c fd := by
      obtain ⟨n, h₁, h₂⟩ := ho
      exact ⟨n, hof ▸ h₁, hon ▸ h₂⟩
    obtain ⟨e, he⟩ := Option.ne_none_iff_exists'.mp hne
    rw [hk c fd ho' hne]
    exact h.owner c fd ho' (by simp [hw fd e he])

end Linked

theorem memory_update {x : Option FdWatchController} {c d : ControllerId}
    (hc : s'.controllers = Function.update s.controllers c x) :
    s'.memory d = if d = c then (x.getD .new).watch else s.memory d := by
  unfold memory
  rw [hc]
  by_cases e : d = c
  · subst e; simp
  · simp [e]

namespace Linked

variable {gen : ℕ → ℕ}

/-- A controller is stopped. -/
theorem stop (h : Linked s gen) {c : ControllerId} {x : Option FdWatchController}
    (hx : (x.getD .new).watch = none)
    (hcon : s'.controllers = Function.update s.controllers c x)
    (ht : s'.table.watches = (s.stopped c).watches)
    (hg : s.table.generationCounter ≤ s'.table.generationCounter) (hc : s'.count = s.count)
    (hon : s'.lastOn = s.lastOn) (hof : s'.lastOf = s.lastOf) : Linked s' gen := by
  refine h.shrink hg hc hon hof (fun fd e he => ?_) (fun d p hp => ?_) fun d fd ho hne => ?_
  · obtain ⟨h₁, h₂⟩ := h.watches_stopped c fd
    rw [ht] at he
    by_cases ho : s.Owns c fd
    · rw [h₁ ho] at he; cases he
    · rwa [h₂ ho] at he
  · rw [memory_update hcon] at hp
    split at hp
    · rw [hx] at hp; cases hp
    · exact hp
  · -- the entry that is left is not of `c`
    have hd : d ≠ c := by
      rintro rfl
      rw [ht] at hne
      exact hne ((h.watches_stopped d fd).1 ho)
    rw [memory_update hcon, if_neg hd]

/-- A registration takes the generation the counter is at, which is above all others. -/
theorem extend (h : Linked s gen) :
    (∀ n < s.count + 1, Function.update gen s.count s.table.generationCounter n <
      s.table.generationCounter + 1) ∧
    ∀ m < s.count + 1, ∀ n < s.count + 1,
      Function.update gen s.count s.table.generationCounter m =
        Function.update gen s.count s.table.generationCounter n → m = n := by
  have old : ∀ n < s.count, Function.update gen s.count s.table.generationCounter n = gen n :=
    fun n hn => Function.update_of_ne (Nat.ne_of_lt hn) ..
  have new : Function.update gen s.count s.table.generationCounter s.count =
      s.table.generationCounter := Function.update_self ..
  refine ⟨fun n hn => ?_, fun m hm n hn hmn => ?_⟩
  · rcases Nat.lt_succ_iff_lt_or_eq.mp hn with hn | rfl
    · rw [old n hn]; exact Nat.lt_succ_of_lt (h.below n hn)
    · rw [new]; exact Nat.lt_succ_self _
  · rcases Nat.lt_succ_iff_lt_or_eq.mp hm with hm | rfl <;>
      rcases Nat.lt_succ_iff_lt_or_eq.mp hn with hn | rfl
    · rw [old m hm, old n hn] at hmn
      exact h.distinct m hm n hn hmn
    · rw [old m hm, new] at hmn
      exact absurd hmn (Nat.ne_of_lt (h.below m hm))
    · rw [old n hn, new] at hmn
      exact absurd hmn.symm (Nat.ne_of_lt (h.below n hn))
    · rfl

/-- The last registration for a descriptor, after the registration `s.count` for `fd`. -/
theorem on_cases (h : Linked s gen) {fd fd' : Fd} {n : ℕ}
    (hn : Function.update s.lastOn fd (some s.count) fd' = some n) :
    (fd' = fd ∧ n = s.count) ∨ (fd' ≠ fd ∧ s.lastOn fd' = some n ∧ n < s.count) := by
  rcases update_some_eq_some.mp hn with ⟨e, rfl⟩ | ⟨e, hn⟩
  · exact .inl ⟨e, rfl⟩
  · exact .inr ⟨e, hn, h.on_lt fd' n hn⟩

/-- The last registration through a controller, after the registration `s.count` through `c`. -/
theorem of_cases (h : Linked s gen) {c d : ControllerId} {n : ℕ}
    (hn : Function.update s.lastOf c (some s.count) d = some n) :
    (d = c ∧ n = s.count) ∨ (d ≠ c ∧ s.lastOf d = some n ∧ n < s.count) := by
  rcases update_some_eq_some.mp hn with ⟨e, rfl⟩ | ⟨e, hn⟩
  · exact .inl ⟨e, rfl⟩
  · exact .inr ⟨e, hn, h.of_lt d n hn⟩

/-- A registration succeeds: it is the registration `s.count`, and `c` remembers it. -/
theorem register (h : Linked s gen) {c : ControllerId} (fd : Fd) {e : WatchEntry}
    (he : e.generation = s.table.generationCounter)
    (ht : s'.table.watches = Function.update s.table.watches fd (some e))
    (hg : s'.table.generationCounter = s.table.generationCounter + 1)
    (hc : s'.count = s.count + 1) (hon : s'.lastOn = Function.update s.lastOn fd (some s.count))
    (hof : s'.lastOf = Function.update s.lastOf c (some s.count))
    (hm : ∀ d, s'.memory d = if d = c then some (fd, e.generation) else s.memory d) :
    Linked s' (Function.update gen s.count s.table.generationCounter) where
  below := by rw [hc, hg]; exact h.extend.1
  distinct := by rw [hc]; exact h.extend.2
  on_lt fd' n hn := by
    rw [hc]
    rcases h.on_cases (hon ▸ hn) with ⟨-, rfl⟩ | ⟨-, -, hlt⟩ <;> omega
  of_lt d n hn := by
    rw [hc]
    rcases h.of_cases (hof ▸ hn) with ⟨-, rfl⟩ | ⟨-, -, hlt⟩ <;> omega
  on_unique fd₁ fd₂ n h₁ h₂ := by
    rcases h.on_cases (hon ▸ h₁) with ⟨e₁, rfl⟩ | ⟨-, h₁, lt₁⟩
    · rcases h.on_cases (hon ▸ h₂) with ⟨e₂, -⟩ | ⟨-, -, lt₂⟩
      · rw [e₁, e₂]
      · exact absurd lt₂ (Nat.lt_irrefl _)
    · rcases h.on_cases (hon ▸ h₂) with ⟨-, rfl⟩ | ⟨-, h₂, -⟩
      · exact absurd lt₁ (Nat.lt_irrefl _)
      · exact h.on_unique fd₁ fd₂ n h₁ h₂
  entry fd' e' he' := by
    rw [ht] at he'
    rw [hon]
    rcases update_some_eq_some.mp he' with ⟨rfl, rfl⟩ | ⟨hne, he'⟩
    · exact ⟨s.count, Function.update_self .., by rw [Function.update_self, he]⟩
    · obtain ⟨n, hn, hgen⟩ := h.entry fd' e' he'
      refine ⟨n, by rw [Function.update_of_ne hne, hn], ?_⟩
      rw [Function.update_of_ne (Nat.ne_of_lt (h.on_lt fd' n hn)), hgen]
  memory d fd' g hd := by
    rw [hm] at hd
    split at hd
    · rename_i hdc
      subst hdc
      cases hd
      refine ⟨s.count, by rw [hof, Function.update_self], by rw [Function.update_self, he], ?_⟩
      intro fd'' hn
      rcases h.on_cases (hon ▸ hn) with ⟨heq, -⟩ | ⟨-, -, hlt⟩
      · exact heq
      · exact absurd hlt (Nat.lt_irrefl _)
    · rename_i hdc
      obtain ⟨n, hn, hgen, honly⟩ := h.memory d fd' g hd
      have hlt := h.of_lt d n hn
      refine ⟨n, by rw [hof, Function.update_of_ne hdc, hn],
        by rw [Function.update_of_ne (Nat.ne_of_lt hlt), hgen], ?_⟩
      intro fd'' hn''
      rcases h.on_cases (hon ▸ hn'') with ⟨-, rfl⟩ | ⟨-, hn'', -⟩
      · exact absurd hlt (Nat.lt_irrefl _)
      · exact honly fd'' hn''
  owner d fd' ho hne := by
    obtain ⟨n, hof', hon'⟩ := ho
    rw [hm]
    rcases h.of_cases (hof ▸ hof') with ⟨rfl, rfl⟩ | ⟨hdc, hof', hlt⟩
    · rcases h.on_cases (hon ▸ hon') with ⟨rfl, -⟩ | ⟨-, -, hlt⟩
      · exact ⟨e.generation, if_pos rfl⟩
      · exact absurd hlt (Nat.lt_irrefl _)
    · rcases h.on_cases (hon ▸ hon') with ⟨-, rfl⟩ | ⟨hfd, hon', -⟩
      · exact absurd hlt (Nat.lt_irrefl _)
      · rw [if_neg hdc]
        rw [ht, Function.update_of_ne hfd] at hne
        exact h.owner d fd' ⟨n, hof', hon'⟩ hne

end Linked

theorem generationCounter_stopped (c : ControllerId) :
    (s.stopped c).generationCounter = s.table.generationCounter :=
  FdWatchController.generationCounter_stop ..

/-- A registration that fails leaves the controller stopped. -/
theorem watch_false (c : ControllerId) (fd : Fd) (persistent : Bool) (mode : WatchMode)
    (w : WatcherId) : s.watch c fd persistent mode w false =
      { s with
        table := ⟨(s.stopped c).watches, (s.stopped c).generationCounter + 1⟩
        controllers := Function.update s.controllers c (some .new) } := by
  simp [watch, FdWatchController.watchFileDescriptor, WatchTable.registerFd, stopped]

theorem linked_watch {gen : ℕ → ℕ} (h : Linked s gen) {c : ControllerId} {fd : Fd}
    {persistent : Bool} {mode : WatchMode} {w : WatcherId} {ok : Bool} :
    ∃ gen', Linked (s.watch c fd persistent mode w ok) gen' := by
  have forget : ((some FdWatchController.new).getD .new).watch = none := rfl
  cases ok with
  | false =>
      rw [watch_false]
      refine ⟨gen, h.stop (c := c) (x := some .new) forget rfl rfl ?_ rfl rfl rfl⟩
      rw [generationCounter_stopped]
      exact Nat.le_succ _
  | true =>
      -- the controller is stopped first
      have hs : Linked (s.next (.stop c)) gen :=
        h.stop (c := c) (x := some .new) forget rfl rfl
          (Nat.le_of_eq (generationCounter_stopped c).symm) rfl rfl rfl
      have forgot : ∀ d, (s.next (.stop c)).memory d = if d = c then none else s.memory d :=
        fun d => memory_update (x := some .new) rfl
      refine ⟨_, hs.register (c := c) fd
        (e := ⟨w, persistent, mode, (s.next (.stop c)).table.generationCounter⟩) rfl rfl rfl rfl
        rfl rfl fun d => ?_⟩
      rw [forgot, memory_update (s := s) (c := c) rfl]
      by_cases hd : d = c
      · rw [if_pos hd, if_pos hd]; rfl
      · rw [if_neg hd, if_neg hd, if_neg hd]

/-- A new controller remembers nothing, and made no registration. -/
theorem linked_create {gen : ℕ → ℕ} (h : Linked s gen) {c : ControllerId}
    (hc : s.controllers c = none) : Linked (s.next (.create c)) gen := by
  have nothing : s.memory c = none := by
    simp only [memory, hc]
    rfl
  have mem : ∀ d, (s.next (.create c)).memory d = s.memory d := by
    intro d
    rw [memory_update (s := s) (c := c) (x := some .new) rfl]
    by_cases hd : d = c
    · rw [if_pos hd, hd, nothing]; rfl
    · rw [if_neg hd]
  have of_cases : ∀ {d n}, (s.next (.create c)).lastOf d = some n →
      d ≠ c ∧ s.lastOf d = some n := fun hn => update_none_eq_some.mp hn
  refine ⟨h.below, h.distinct, h.on_lt, fun d n hn => h.of_lt d n (of_cases hn).2,
    h.on_unique, h.entry, fun d fd g hd => ?_, fun d fd ho hne => ?_⟩
  · rw [mem] at hd
    obtain ⟨n, hn, rest⟩ := h.memory d fd g hd
    have hdc : d ≠ c := by
      rintro rfl
      rw [nothing] at hd
      cases hd
    exact ⟨n, (Function.update_of_ne hdc ..).trans hn, rest⟩
  · obtain ⟨n, hof, hon⟩ := ho
    rw [mem]
    exact h.owner d fd ⟨n, (of_cases hof).2, hon⟩ hne

theorem linked_next {gen : ℕ → ℕ} (h : Linked s gen) {a : WatchAct} (ha : s.Enabled a) :
    ∃ gen', Linked (s.next a) gen' := by
  cases a with
  | create c => exact ⟨gen, linked_create h ha⟩
  | watch c fd persistent mode w ok => exact linked_watch h
  | stop c =>
      exact ⟨gen, h.stop (c := c) (x := some .new) rfl rfl rfl
        (Nat.le_of_eq (generationCounter_stopped c).symm) rfl rfl rfl⟩
  | drop c =>
      exact ⟨gen, h.stop (c := c) (x := none) rfl rfl rfl
        (Nat.le_of_eq (generationCounter_stopped c).symm) rfl rfl rfl⟩
  | dispatch fd =>
      have sub : ∀ fd' e, (s.table.consume fd).watches fd' = some e →
          s.table.watches fd' = some e := by
        intro fd' e he
        unfold WatchTable.consume at he
        split at he
        · split at he
          · exact he
          · exact (update_none_eq_some.mp he).2
        · exact he
      have counter : (s.table.consume fd).generationCounter = s.table.generationCounter := by
        unfold WatchTable.consume
        split
        · split <;> rfl
        · rfl
      exact ⟨gen, h.shrink (Nat.le_of_eq counter.symm) rfl rfl rfl sub (fun _ _ hp => hp)
        fun _ _ _ _ => rfl⟩
  | openFd fd | closeFd fd =>
      exact ⟨gen, h.shrink (Nat.le_refl _) rfl rfl rfl (fun _ _ he => he) (fun _ _ hp => hp)
        fun _ _ _ _ => rfl⟩

end WatchState

theorem reachable_linked {s : WatchState} (h : watchMachine.Reachable s) :
    ∃ gen, s.Linked gen := by
  refine h.invariant (I := fun s => ∃ gen, s.Linked gen) (fun s h₀ => ?_) ?_
  · obtain ⟨isOpen, rfl⟩ := h₀
    exact ⟨id, .init isOpen⟩
  · rintro s a - ⟨gen, hi⟩ - ha
    exact WatchState.linked_next hi ha

/-- **Generations isolate registrations.**  In every reachable state:

* stopping or dropping a controller removes an entry if and only if the entry is the one made by the
  controller's own last registration that succeeded, and leaves every other entry as it is;
* `watch_file_descriptor` does the same to the entries of all descriptors but the one it registers,
  and to that one too when it fails;
* no two entries of the table have the same generation. -/
theorem stop_removes_own {s : WatchState} (h : watchMachine.Reachable s) :
    (∀ c a, a = .stop c ∨ a = .drop c → ∀ fd e, s.table.watches fd = some e →
      ((s.next a).table.watches fd = none ↔ s.Owns c fd) ∧
      ((s.next a).table.watches fd = some e ↔ ¬ s.Owns c fd)) ∧
    (∀ c fd persistent mode w ok fd' e, (ok = true → fd' ≠ fd) → s.table.watches fd' = some e →
      ((s.next (.watch c fd persistent mode w ok)).table.watches fd' = none ↔ s.Owns c fd') ∧
      ((s.next (.watch c fd persistent mode w ok)).table.watches fd' = some e ↔
        ¬ s.Owns c fd')) ∧
    (∀ fd₁ fd₂ e₁ e₂, s.table.watches fd₁ = some e₁ → s.table.watches fd₂ = some e₂ →
      e₁.generation = e₂.generation → fd₁ = fd₂) := by
  obtain ⟨gen, hl⟩ := reachable_linked h
  -- what stopping does to the entry of a descriptor
  have stopped : ∀ {c fd e} {t : WatchTable}, t.watches fd = (s.stopped c).watches fd →
      s.table.watches fd = some e →
      (t.watches fd = none ↔ s.Owns c fd) ∧ (t.watches fd = some e ↔ ¬ s.Owns c fd) := by
    intro c fd e t ht he
    obtain ⟨h₁, h₂⟩ := hl.watches_stopped c fd
    rw [ht]
    by_cases ho : s.Owns c fd
    · simp [h₁ ho, ho]
    · simp [h₂ ho, he, ho]
  refine ⟨?_, fun c fd persistent mode w ok fd' e hfd he => ?_, fun fd₁ fd₂ e₁ e₂ h₁ h₂ hg => ?_⟩
  · rintro c a (rfl | rfl) fd e he
    · exact stopped rfl he
    · exact stopped rfl he
  · refine stopped ?_ he
    cases ok with
    | false =>
        exact congrArg (fun x => x.table.watches fd')
          (WatchState.watch_false c fd persistent mode w)
    | true => exact Function.update_of_ne (hfd rfl) ..
  · obtain ⟨n₁, hn₁, hg₁⟩ := hl.entry fd₁ e₁ h₁
    obtain ⟨n₂, hn₂, hg₂⟩ := hl.entry fd₂ e₂ h₂
    have hn : n₁ = n₂ := hl.distinct n₁ (hl.on_lt _ _ hn₁) n₂ (hl.on_lt _ _ hn₂)
      (hg₁.trans (hg.trans hg₂.symm))
    exact hl.on_unique fd₁ fd₂ n₁ hn₁ (hn ▸ hn₂)

/-- Two controllers watch descriptor 5, the second after the number was given out again. -/
def replaceRun : List WatchAct :=
  [.create 0, .create 1, .watch 0 5 false .read 1 true, .closeFd 5, .openFd 5,
   .watch 1 5 false .read 2 true]

/-- After `replaceRun` the first controller leaves the entry alone, and the second one removes
it. -/
theorem replaceRun_isolated :
    let s := watchMachine.runList (.new (· ≤ 5)) replaceRun
    s.table.watches 5 = some ⟨2, false, .read, 1⟩ ∧
      (s.next (.drop 0)).table.watches 5 = some ⟨2, false, .read, 1⟩ ∧
      (s.next (.drop 1)).table.watches 5 = none := by
  have follows : watchMachine.Follows (fun _ _ => True) (.new (· ≤ 5)) replaceRun := by
    decide +kernel
  have entry : (watchMachine.runList (.new (· ≤ 5)) replaceRun).table.watches 5 =
      some ⟨2, false, .read, 1⟩ := by decide +kernel
  obtain ⟨stop, -, -⟩ := stop_removes_own (.of_follows ⟨(· ≤ 5), rfl⟩ follows)
  refine ⟨entry, (stop 0 _ (.inr rfl) 5 _ entry).2.mpr ?_, (stop 1 _ (.inr rfl) 5 _ entry).1.mpr ?_⟩
  · rintro ⟨n, hof, hon⟩
    have first : (watchMachine.runList (.new (· ≤ 5)) replaceRun).lastOf 0 = some 0 := by
      decide +kernel
    have second : (watchMachine.runList (.new (· ≤ 5)) replaceRun).lastOn 5 = some 1 := by
      decide +kernel
    cases first.symm.trans hof
    cases second.symm.trans hon
  · exact ⟨1, by decide +kernel, by decide +kernel⟩

end RustIo
