import Coropp.Sched
import Coropp.Lib.Maps

/-!
# The wait sets of the map-based pollers

`_read_set` and `_write_set` of `poll_poller` and `select_poller`: one map from descriptors to
coroutines for each direction.
-/

namespace Coropp

/-- The conversion of an `int64_t` to `int`. -/
def toInt32 (x : Int) : Int := (BitVec.ofInt 32 x).toInt

theorem toInt32_of_small {x : Int} (hlo : 0 ≤ x) (hhi : x < 0x80000000) : toInt32 x = x := by
  unfold toInt32
  rw [BitVec.toInt_ofInt]
  exact Int.bmod_eq_of_le (by omega) (by omega)

/-- A file descriptor. -/
abbrev Fd := Int

/-- `fd_map`. -/
abbrev FdMap := Std.TreeMap Fd CoroId

inductive Direction where
  | read
  | write
deriving DecidableEq, Repr

/-- A registration: `co` waits on `fd` in one direction. -/
structure Wait where
  dir : Direction
  fd : Fd
  co : CoroId
deriving DecidableEq, Repr

def Wait.ofEntry (dir : Direction) (e : Fd × CoroId) : Wait := ⟨dir, e.1, e.2⟩

-- `schedule ()` with its default argument
def Wait.entry (w : Wait) : PendingEntry := (w.co, 0)

structure WaitSets where
  readSet : FdMap := {}
  writeSet : FdMap := {}

namespace WaitSets

def waitSet (p : WaitSets) : Direction → FdMap
  | .read => p.readSet
  | .write => p.writeSet

def modify (p : WaitSets) (dir : Direction) (f : FdMap → FdMap) : WaitSets :=
  match dir with
  | .read => { p with readSet := f p.readSet }
  | .write => { p with writeSet := f p.writeSet }

-- _read_set[fd] = c, or the same for _write_set
def setWaitFor (p : WaitSets) (dir : Direction) (fd : Fd) (c : CoroId) : WaitSets :=
  p.modify dir fun m => m.insert fd c

def erase (p : WaitSets) (dir : Direction) (fd : Fd) : WaitSets :=
  p.modify dir fun m => m.erase fd

/-- The entry of `fd` is looked up, its coroutine is scheduled, and then it is erased; `Dead_Coro`
    leaves it in. -/
def wake (p : WaitSets) (s : Sched) (dir : Direction) (fd : Fd) : Outcome (WaitSets × Sched) :=
  match (p.waitSet dir)[fd]? with
  | some co =>
    match s.schedule co 0 with
    | .returned s => .returned (p.erase dir fd, s)
    | .deadCoro z s => .deadCoro z (p, s)
  -- "not in read set!"
  | none => .returned (p, s)

/-- The coroutine of `w` is registered as `w` says. -/
def Registered (p : WaitSets) (w : Wait) : Prop := (p.waitSet w.dir)[w.fd]? = some w.co

instance (p : WaitSets) (w : Wait) : Decidable (p.Registered w) :=
  inferInstanceAs (Decidable (_ = _))

/-- All registrations, those for reading first, each set in the order of the descriptors. -/
def registrations (p : WaitSets) : List Wait :=
  p.readSet.toList.map (Wait.ofEntry .read) ++ p.writeSet.toList.map (Wait.ofEntry .write)

variable {p : WaitSets} {s : Sched} {dir : Direction} {fd : Fd} {co : CoroId} {f : FdMap → FdMap}

@[simp] theorem waitSet_modify_self : (p.modify dir f).waitSet dir = f (p.waitSet dir) := by
  cases dir <;> rfl

theorem waitSet_modify_of_ne {d : Direction} (h : d ≠ dir) :
    (p.modify dir f).waitSet d = p.waitSet d := by
  cases d <;> cases dir <;> first | rfl | exact absurd rfl h

-- A registration, and no other one, leaves with its descriptor and direction.
theorem registered_erase {w : Wait} :
    (p.erase dir fd).Registered w ↔ p.Registered w ∧ ¬(w.dir = dir ∧ w.fd = fd) := by
  unfold Registered erase
  by_cases hdir : w.dir = dir
  · rw [hdir, waitSet_modify_self, Maps.getElem?_erase_eq]
    by_cases hfd : w.fd = fd
    · simp [hfd]
    · simp [hfd]
  · rw [waitSet_modify_of_ne hdir]
    simp [hdir]

-- A registration takes the place of the one on its descriptor and direction.
theorem registered_setWaitFor {c : CoroId} {w : Wait} :
    (p.setWaitFor dir fd c).Registered w ↔
      if w.dir = dir ∧ w.fd = fd then w.co = c else p.Registered w := by
  unfold Registered setWaitFor
  by_cases hdir : w.dir = dir
  · rw [hdir, waitSet_modify_self, Maps.getElem?_insert_eq]
    by_cases hfd : w.fd = fd
    · simp [hfd, eq_comm]
    · simp [hfd]
  · rw [waitSet_modify_of_ne hdir]
    simp [hdir]

theorem mem_registrations {w : Wait} : w ∈ p.registrations ↔ p.Registered w := by
  rcases w with ⟨dir, fd, co⟩
  unfold registrations Registered
  rw [List.mem_append, List.mem_map, List.mem_map]
  cases dir
  · simp [waitSet, Wait.ofEntry]
  · simp [waitSet, Wait.ofEntry]

-- Each set is keyed by descriptor.
theorem registrations_keys_ne (p : WaitSets) :
    p.registrations.Pairwise fun a b => ¬(a.dir = b.dir ∧ a.fd = b.fd) := by
  rw [registrations, List.pairwise_append, List.pairwise_map, List.pairwise_map]
  refine ⟨?_, ?_, ?_⟩
  · exact (Maps.toList_keys_ne p.readSet).imp fun hne h => hne h.2
  · exact (Maps.toList_keys_ne p.writeSet).imp fun hne h => hne h.2
  · intro a ha b hb h
    rcases List.mem_map.mp ha with ⟨_, _, rfl⟩
    rcases List.mem_map.mp hb with ⟨_, _, rfl⟩
    cases h.1

theorem Registered.eq_of_key {v w : Wait} (hv : p.Registered v) (hw : p.Registered w)
    (hdir : v.dir = w.dir) (hfd : v.fd = w.fd) : v = w := by
  unfold Registered at hv hw
  rw [hdir, hfd, hw] at hv
  cases v
  cases w
  simp_all

theorem wake_alive (h : (p.waitSet dir)[fd]? = some co) (ha : (s.coros co).dead = false) :
    p.wake s dir fd = .returned (p.erase dir fd, s.push [(co, 0)]) := by
  simp only [wake, h, Sched.schedule_alive ha]

theorem wake_dead (h : (p.waitSet dir)[fd]? = some co) (hd : (s.coros co).dead = true) :
    (p.wake s dir fd).isReturned = false := by
  simp only [wake, h, Sched.schedule_dead hd, Sched.raise, Outcome.isReturned_deadCoro]

/-- Schedule the waiters of `ws` one after the other. -/
def wakeAll : List Wait → WaitSets × Sched → Outcome (WaitSets × Sched)
  | [], st => .returned st
  | w :: ws, st => (st.1.wake st.2 w.dir w.fd).bind (wakeAll ws)

theorem wakeAll_alive {ws : List Wait} {p : WaitSets} {s : Sched}
    (hreg : ∀ w ∈ ws, p.Registered w)
    (hkeys : ws.Pairwise fun a b => ¬(a.dir = b.dir ∧ a.fd = b.fd))
    (halive : ∀ w ∈ ws, (s.coros w.co).dead = false) :
    ∃ p', wakeAll ws (p, s) = .returned (p', s.push (ws.map Wait.entry)) ∧
      ∀ v, p'.Registered v ↔ p.Registered v ∧ ∀ w ∈ ws, ¬(v.dir = w.dir ∧ v.fd = w.fd) := by
  induction ws generalizing p s with
  | nil => exact ⟨p, by simp [wakeAll], by simp⟩
  | cons w ws ih =>
    rcases List.pairwise_cons.mp hkeys with ⟨hhead, htail⟩
    have hreg' : ∀ v ∈ ws, (p.erase w.dir w.fd).Registered v := by
      intro v hv
      rw [registered_erase]
      exact ⟨hreg v (.tail _ hv), fun h => hhead v hv ⟨h.1.symm, h.2.symm⟩⟩
    obtain ⟨p', hrun, hleft⟩ := ih (s := s.push [w.entry]) hreg' htail
      (fun v hv => halive v (.tail _ hv))
    refine ⟨p', ?_, fun v => ?_⟩
    · rw [wakeAll, wake_alive (hreg w (.head _)) (halive w (.head _)), Outcome.bind_returned]
      change wakeAll ws (_, s.push [w.entry]) = _
      rw [hrun, Sched.push_push]
      rfl
    · rw [hleft, registered_erase]
      simp only [List.forall_mem_cons, and_assoc]

theorem wakeAll_dead {ws : List Wait} {p : WaitSets} {s : Sched}
    (hreg : ∀ w ∈ ws, p.Registered w)
    (hkeys : ws.Pairwise fun a b => ¬(a.dir = b.dir ∧ a.fd = b.fd))
    (hdead : ∃ w ∈ ws, (s.coros w.co).dead = true) :
    (wakeAll ws (p, s)).isReturned = false := by
  induction ws generalizing p s with
  | nil => simp at hdead
  | cons w ws ih =>
    rw [wakeAll]
    by_cases hw : (s.coros w.co).dead = true
    · have hthrow := wake_dead (hreg w (.head _)) hw
      cases hout : p.wake s w.dir w.fd with
      | returned st => simp [hout] at hthrow
      | deadCoro z st => rfl
    · rcases List.pairwise_cons.mp hkeys with ⟨hhead, htail⟩
      rw [wake_alive (hreg w (.head _)) (by simpa using hw), Outcome.bind_returned]
      apply ih _ htail
      · rcases hdead with ⟨v, hv, hvd⟩
        rcases List.mem_cons.mp hv with rfl | hv
        · exact absurd hvd hw
        · exact ⟨v, hv, hvd⟩
      · intro v hv
        rw [registered_erase]
        exact ⟨hreg v (.tail _ hv), fun h => hhead v hv ⟨h.1.symm, h.2.symm⟩⟩

/-! ## Entries as a multiset -/

-- Erasing an entry takes one registration away.
theorem registrations_erase (h : (p.waitSet dir)[fd]? = some co) :
    p.registrations.Perm (⟨dir, fd, co⟩ :: (p.erase dir fd).registrations) := by
  cases dir with
  | read =>
    have hperm := (Maps.toList_perm_erase h).map (Wait.ofEntry .read)
    exact hperm.append_right _
  | write =>
    have hperm := (Maps.toList_perm_erase h).map (Wait.ofEntry .write)
    exact (hperm.append_left _).trans List.perm_middle

theorem registrations_setWaitFor_new (c : CoroId) (h : (p.waitSet dir)[fd]? = none) :
    (p.setWaitFor dir fd c).registrations.Perm (⟨dir, fd, c⟩ :: p.registrations) := by
  cases dir with
  | read =>
    have hperm := (Maps.toList_perm_insert_new c h).map (Wait.ofEntry .read)
    exact hperm.append_right _
  | write =>
    have hperm := (Maps.toList_perm_insert_new c h).map (Wait.ofEntry .write)
    exact (hperm.append_left _).trans List.perm_middle

-- A registration on a descriptor that has one takes its place.
theorem registrations_setWaitFor_old (c : CoroId) (h : (p.waitSet dir)[fd]? = some co) :
    ∃ rest, p.registrations.Perm (⟨dir, fd, co⟩ :: rest) ∧
      (p.setWaitFor dir fd c).registrations.Perm (⟨dir, fd, c⟩ :: rest) := by
  rcases Maps.toList_perm_insert_old c h with ⟨rest, hold, hnew⟩
  cases dir with
  | read =>
    exact ⟨_, (hold.map (Wait.ofEntry .read)).append_right _,
      (hnew.map (Wait.ofEntry .read)).append_right _⟩
  | write =>
    exact ⟨_, ((hold.map (Wait.ofEntry .write)).append_left _).trans List.perm_middle,
      ((hnew.map (Wait.ofEntry .write)).append_left _).trans List.perm_middle⟩

/-- What looking at wait sets with a scheduler can do: the registrations `woken` leave the sets and
    are scheduled in this order, and then it returns or has met a registered dead coroutine. -/
def Moves (p : WaitSets) (s : Sched) (out : Outcome (WaitSets × Sched)) (woken : List Wait)
    (p' : WaitSets) : Prop :=
  p.registrations.Perm (woken ++ p'.registrations) ∧
    (out = .returned (p', s.push (woken.map Wait.entry)) ∨
      ∃ w ∈ p'.registrations, (s.coros w.co).dead = true ∧
        out = .deadCoro w.co (p', ((s.push (woken.map Wait.entry)).raise w.co).state))

theorem Moves.refl (p : WaitSets) (s : Sched) : Moves p s (.returned (p, s)) [] p :=
  ⟨.refl _, .inl (by simp)⟩

theorem Moves.left {out : Outcome (WaitSets × Sched)} {woken : List Wait} {p' : WaitSets}
    (h : Moves p s out woken p') : out.state.1 = p' := by
  rcases h.2 with rfl | ⟨w, -, -, rfl⟩ <;> rfl

theorem Moves.accepted {out : Outcome (WaitSets × Sched)} {woken : List Wait} {p' : WaitSets}
    (h : Moves p s out woken p') :
    out.state.2.hist.accepted = s.hist.accepted ++ woken.map Wait.entry := by
  rcases h.2 with rfl | ⟨w, -, -, rfl⟩ <;> rfl

theorem wake_moves (p : WaitSets) (s : Sched) (dir : Direction) (fd : Fd) :
    ∃ woken p', Moves p s (p.wake s dir fd) woken p' := by
  cases h : (p.waitSet dir)[fd]? with
  | none =>
    have hnone : p.wake s dir fd = .returned (p, s) := by
      simp only [wake, h]
    rw [hnone]
    exact ⟨[], p, .refl p s⟩
  | some co =>
    cases hd : (s.coros co).dead with
    | false =>
      rw [wake_alive h hd]
      exact ⟨[⟨dir, fd, co⟩], _, registrations_erase h, .inl rfl⟩
    | true =>
      have hraise : p.wake s dir fd = .deadCoro co (p, (s.raise co).state) := by
        simp only [wake, h, Sched.schedule_dead hd, Sched.raise, Outcome.state_deadCoro]
      rw [hraise]
      refine ⟨[], p, .refl _, .inr ⟨⟨dir, fd, co⟩, mem_registrations.mpr h, hd, ?_⟩⟩
      rw [List.map_nil, Sched.push_nil]

-- Whatever follows, also moves registrations.
theorem Moves.bind {p p₁ : WaitSets} {s : Sched} {out : Outcome (WaitSets × Sched)}
    {woken : List Wait} {g : WaitSets × Sched → Outcome (WaitSets × Sched)}
    (h : Moves p s out woken p₁)
    (hg : ∀ s₁, ∃ woken₁ p₂, Moves p₁ s₁ (g (p₁, s₁)) woken₁ p₂) :
    ∃ woken' p', Moves p s (out.bind g) woken' p' := by
  rcases h with ⟨hperm, rfl | ⟨w, hw, hd, rfl⟩⟩
  · rcases hg (s.push (woken.map Wait.entry)) with ⟨woken₁, p₂, hperm₁, hout⟩
    refine ⟨woken ++ woken₁, p₂, ?_, ?_⟩
    · rw [List.append_assoc]
      exact hperm.trans (hperm₁.append_left woken)
    · rw [List.map_append, ← Sched.push_push]
      exact hout
  · exact ⟨woken, p₁, hperm, .inr ⟨w, hw, hd, rfl⟩⟩

end WaitSets

end Coropp
