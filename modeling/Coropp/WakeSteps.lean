import Coropp.Expiry
import Coropp.Tokens

/-!
# What a step does to those who wait

A suspended coroutine has an entry in the container of what it waits for: a timer, a registration,
or a place in the queue of a condition variable, latch or fifo.  In every step the entries that
leave these containers for `_pending` leave because the awaited thing happens.
-/

namespace Coropp

/-- What a suspended coroutine waits for. -/
inductive Awaited where
  | deadline (t : Timeval)
  | descriptor (dir : Direction) (fd : Fd)
  | condVar (k : Nat)
  | latch (k : Nat)
  | fifo (k : Nat)
deriving DecidableEq, Repr

def WaitCall.awaited : WaitCall → Awaited
  | .sleep now msec => .deadline (sleepDeadline now msec)
  | .waitFor dir fd => .descriptor dir fd
  | .cvWait k => .condVar k
  | .latchWait k => .latch k
  | .pop k => .fifo k

/-! ## What a poll wakes -/

theorem WaitSets.wake_returned {w : WaitSets} {s : Sched} (dir : Direction) (fd : Fd)
    (halive : ∀ v, w.Registered v → (s.coros v.co).dead = false) :
    ∃ (woken : List Wait) (w' : WaitSets),
      w.wake s dir fd = .returned (w', s.push (woken.map Wait.entry)) ∧
      w.registrations.Perm (woken ++ w'.registrations) ∧
      ∀ v ∈ woken, v.dir = dir ∧ v.fd = fd := by
  cases hreg : (w.waitSet dir)[fd]? with
  | none =>
    refine ⟨[], w, ?_, .refl _, fun v hv => absurd hv List.not_mem_nil⟩
    simp only [WaitSets.wake, hreg, List.map_nil, Sched.push_nil]
  | some co =>
    have halive' : (s.coros co).dead = false := halive ⟨dir, fd, co⟩ hreg
    refine ⟨[⟨dir, fd, co⟩], w.erase dir fd, wake_alive hreg halive', registrations_erase hreg, ?_⟩
    intro v hv
    obtain rfl := List.mem_singleton.mp hv
    exact ⟨rfl, rfl⟩

namespace PollPoller

/-- The answer has the bit of `dir` in a slot of `fd`. -/
def Reports (p : PollPoller) (r : PollResponse) (dir : Direction) (fd : Fd) : Prop :=
  ∃ j v, p.waits[j]? = some v ∧ v.fd = fd ∧ r.revents j &&& dir.bit ≠ 0

variable {p : PollPoller} {w : WaitSets} {s : Sched}

theorem dispatchSlot_alive (slot : Pollfd)
    (halive : ∀ v, w.Registered v → (s.coros v.co).dead = false) :
    ∃ (woken : List Wait) (w' : WaitSets),
      dispatchSlot slot w s = .returned (w', s.push (woken.map Wait.entry)) ∧
      w.registrations.Perm (woken ++ w'.registrations) ∧
      ∀ v ∈ woken, slot.fd = v.fd ∧ slot.revents &&& v.dir.bit ≠ 0 := by
  have hwake : ∀ dir : Direction, slot.revents &&& dir.bit ≠ 0 →
      ∃ (woken : List Wait) (w' : WaitSets),
        w.wake s dir slot.fd = .returned (w', s.push (woken.map Wait.entry)) ∧
        w.registrations.Perm (woken ++ w'.registrations) ∧
        ∀ v ∈ woken, slot.fd = v.fd ∧ slot.revents &&& v.dir.bit ≠ 0 := by
    intro dir hbit
    rcases WaitSets.wake_returned dir slot.fd halive with ⟨woken, w', hret, hperm, hkey⟩
    refine ⟨woken, w', hret, hperm, fun v hv => ?_⟩
    rcases hkey v hv with ⟨hdir, hfd⟩
    exact ⟨hfd.symm, by rwa [hdir]⟩
  unfold dispatchSlot
  split
  next hin => exact hwake .read hin
  next =>
    split
    next hout => exact hwake .write hout
    next => exact ⟨[], w, by simp, .refl _, fun v hv => absurd hv List.not_mem_nil⟩

-- Without dead coroutines in the sets, every registration that is taken out has its bit in a slot
-- of its descriptor.
theorem dispatch_alive (slots : List Pollfd) (n : Nat)
    (halive : ∀ v, w.Registered v → (s.coros v.co).dead = false) :
    ∃ (woken : List Wait) (w' : WaitSets),
      dispatch slots n (w, s) = .returned (w', s.push (woken.map Wait.entry)) ∧
      w.registrations.Perm (woken ++ w'.registrations) ∧
      ∀ v ∈ woken, ∃ slot ∈ slots, slot.fd = v.fd ∧ slot.revents &&& v.dir.bit ≠ 0 := by
  have hdone : ∃ (woken : List Wait) (w' : WaitSets),
      (Outcome.returned (w, s) : Outcome (WaitSets × Sched)) =
        .returned (w', s.push (woken.map Wait.entry)) ∧
      w.registrations.Perm (woken ++ w'.registrations) ∧
      ∀ v ∈ woken, ∃ slot ∈ slots, slot.fd = v.fd ∧ slot.revents &&& v.dir.bit ≠ 0 :=
    ⟨[], w, by simp, .refl _, fun v hv => absurd hv List.not_mem_nil⟩
  induction slots generalizing n w s with
  | nil => exact hdone
  | cons slot slots ih =>
    cases n with
    | zero => exact hdone
    | succ n =>
      rcases dispatchSlot_alive slot halive with ⟨woken, w₁, hslot, hperm, hkey⟩
      have halive₁ : ∀ v, w₁.Registered v →
          ((s.push (woken.map Wait.entry)).coros v.co).dead = false := by
        intro v hv
        apply halive v
        rw [← WaitSets.mem_registrations] at hv ⊢
        exact hperm.mem_iff.mpr (List.mem_append_right _ hv)
      rcases ih (n := n) halive₁ ⟨[], w₁, by simp, .refl _, fun v hv => absurd hv List.not_mem_nil⟩
        with ⟨woken₁, w₂, hrest, hperm₁, hkey₁⟩
      refine ⟨woken ++ woken₁, w₂, ?_, ?_, fun v hv => ?_⟩
      · rw [dispatch, hslot, Outcome.bind_returned, hrest, Sched.push_push, List.map_append]
      · rw [List.append_assoc]
        exact hperm.trans (hperm₁.append_left woken)
      · rcases List.mem_append.mp hv with hv | hv
        · exact ⟨slot, .head _, hkey v hv⟩
        · rcases hkey₁ v hv with ⟨slot', hmem, hhit⟩
          exact ⟨slot', .tail _ hmem, hhit⟩

theorem poll_alive {r : PollResponse} {out : Outcome (PollPoller × Sched)}
    (hpoll : p.poll s r = some out)
    (halive : ∀ v, p.Registered v → (s.coros v.co).dead = false) :
    ∃ (p' : PollPoller) (woken : List Wait),
      out = .returned (p', s.push (woken.map Wait.entry)) ∧
      p.registrations.Perm (woken ++ p'.registrations) ∧
      ∀ v ∈ woken, p.Reports r v.dir v.fd := by
  unfold poll at hpoll
  split at hpoll
  · cases hpoll
  · dsimp only at hpoll
    split at hpoll
    · obtain rfl := Option.some.inj hpoll
      exact ⟨p.fillSlots, [], by simp, .refl _, fun v hv => absurd hv List.not_mem_nil⟩
    · obtain rfl := Option.some.inj hpoll
      rw [window_respond]
      rcases dispatch_alive (w := p.toWaitSets)
        (p.waits.zipIdx.map fun q =>
          { fillFor q.1 (p.pollSet q.2) with revents := r.revents q.2 }) r.result.toNat halive with
        ⟨woken, w', hrun, hperm, hkey⟩
      refine ⟨{ p.fillSlots.respond r with toWaitSets := w' }, woken, ?_, hperm, fun v hv => ?_⟩
      · change Outcome.map _ (dispatch _ _ (p.toWaitSets, s)) = _
        rw [hrun, Outcome.map_returned]
      · rcases hkey v hv with ⟨slot, hslot, hfd, hbit⟩
        rcases List.mem_map.mp hslot with ⟨⟨u, j⟩, hu, rfl⟩
        exact ⟨j, u, List.mem_zipIdx_iff_getElem?.mp hu, hfd, hbit⟩

end PollPoller

/-- `co` is in the list of queue `k`. -/
def InQueue {α : Type} (f : α → List CoroId) (l : List α) (k : Nat) (co : CoroId) : Prop :=
  ∃ x, l[k]? = some x ∧ co ∈ f x

theorem InQueue.of_set {α : Type} {f : α → List CoroId} {l : List α} {j k : Nat} {x y : α}
    {co : CoroId} (hk : l[k]? = some x) (hin : InQueue f (l.set k y) j co) :
    InQueue f l j co ∨ j = k ∧ co ∈ f y ∧ co ∉ f x := by
  rcases hin with ⟨z, hz, hco⟩
  rcases Maps.set_eq hz with ⟨rfl, rfl⟩ | ⟨-, hold⟩
  · by_cases hx : co ∈ f x
    · exact .inl ⟨x, hk, hx⟩
    · exact .inr ⟨rfl, hco, hx⟩
  · exact .inl ⟨z, hold, hco⟩

-- A queue that loses members gains none.
theorem InQueue.of_set_subset {α : Type} {f : α → List CoroId} {l : List α} {j k : Nat} {x y : α}
    {co : CoroId} (hk : l[k]? = some x) (hsub : f y ⊆ f x) (hin : InQueue f (l.set k y) j co) :
    InQueue f l j co := by
  rcases hin.of_set hk with hold | ⟨-, hy, hx⟩
  · exact hold
  · exact absurd (hsub hy) hx

-- One member more.
theorem InQueue.of_set_append {α : Type} {f : α → List CoroId} {l : List α} {j k : Nat} {x y : α}
    {me co : CoroId} (hk : l[k]? = some x) (hy : f y = f x ++ [me])
    (hin : InQueue f (l.set k y) j co) : InQueue f l j co ∨ j = k ∧ co = me := by
  rcases hin.of_set hk with hold | ⟨rfl, hmem, hnew⟩
  · exact .inl hold
  · rw [hy] at hmem
    rcases List.mem_append.mp hmem with hmem | hmem
    · exact absurd hmem hnew
    · exact .inr ⟨rfl, List.mem_singleton.mp hmem⟩

theorem InQueue.of_append {α : Type} {f : α → List CoroId} {l : List α} {k : Nat} {x : α}
    {co : CoroId} (hx : f x = []) (hin : InQueue f (l ++ [x]) k co) : InQueue f l k co := by
  rcases hin with ⟨z, hz, hco⟩
  by_cases hk : k < l.length
  · rw [List.getElem?_append_left hk] at hz
    exact ⟨z, hz, hco⟩
  · rw [List.getElem?_append_right (Nat.le_of_not_lt hk)] at hz
    obtain rfl := List.mem_singleton.mp (List.mem_of_getElem? hz)
    rw [hx] at hco
    exact absurd hco List.not_mem_nil

theorem InQueue.queued_pos {α : Type} {f : α → List CoroId} {l : List α} {k : Nat} {co : CoroId}
    (hin : InQueue f l k co) : 0 < queued f l co := by
  rcases hin with ⟨x, hk, hco⟩
  exact (List.count_pos_iff.mpr hco).trans_le (count_le_queued f hk co)

namespace System

variable {T : Type}

/-- `co` has an entry in the container that belongs to what it waits for. -/
def Parked (sys : System T) (co : CoroId) : Awaited → Prop
  | .deadline t => (⟨t, 0, co⟩ : Event) ∈ sys.sched.events
  | .descriptor dir fd => sys.poller.Registered ⟨dir, fd, co⟩
  | .condVar k => InQueue CondVar.waiting sys.cvs k co
  | .latch k => InQueue (fun l : Latch => l.cv.waiting) sys.latches k co
  | .fifo k => InQueue (fun f : Fifo T => f.cv.waiting) sys.fifos k co

/-- `co` is the first in its queue, if it waits in a queue. -/
def First (sys : System T) (co : CoroId) : Awaited → Prop
  | .condVar k => ∃ cv, sys.cvs[k]? = some cv ∧ cv.waiting.head? = some co
  | .latch k => ∃ l, sys.latches[k]? = some l ∧ l.cv.waiting.head? = some co
  | .fifo k => ∃ f, sys.fifos[k]? = some f ∧ f.cv.waiting.head? = some co
  | .deadline _ | .descriptor _ _ => True

/-- In step `a` the awaited thing happens, and `arg` is what the wait then returns. -/
def Ends (sys : System T) : SysAct T → Awaited → Arg → Prop
  | .enter _ tv, .deadline t, arg => timercmpLt t tv = true ∧ arg = 0
  | .next _ tv, .deadline t, arg => timercmpLt t tv = true ∧ arg = 0
  | .pollReturn _ tv _, .deadline t, arg => timercmpLt t tv = true ∧ arg = 0
  | .pollReturn _ _ r, .descriptor dir fd, arg => sys.poller.Reports r dir fd ∧ arg = 0
  | .call (.wakeOne k a), .condVar j, arg => j = k ∧ arg = a
  | .call (.wakeAll k a), .condVar j, arg => j = k ∧ arg = a
  | .call (.latchWakeAll k), .latch j, arg => j = k ∧ arg = 0
  | .call (.push k _), .fifo j, arg => j = k ∧ arg = 0
  | _, _, _ => False

/-- The coroutine that has control starts to wait in step `a`, or the one that gets control goes on
    waiting in `pop`. -/
def Parks (sys : System T) (a : SysAct T) (co : CoroId) (g : Awaited) : Prop :=
  (∃ c, a = .block c ∧ sys.running = some co ∧ g = c.awaited) ∨
    ∃ rule tv k, a = .next rule tv ∧ sys.popping co = some k ∧ g = .fifo k

/-- Step `a` starts `co`, or ends its wait. -/
def Releases (sys : System T) (a : SysAct T) (co : CoroId) (arg : Arg) : Prop :=
  a = .call (.launch co arg) ∧ sys.launched co = false ∨
    ∃ g, sys.Parked co g ∧ sys.First co g ∧ sys.Ends a g arg

/-- What a step does to those who wait and to those whose turn will come. -/
structure Explained (sys : System T) (a : SysAct T) (sys' : System T) : Prop where
  parked : ∀ co g, sys'.Parked co g → sys.Parked co g ∨ sys.Parks a co g
  queued : ∀ co arg, sys'.Queued (co, arg) → sys.Queued (co, arg) ∨ sys.Releases a co arg
  timers : ∀ e ∈ sys'.sched.events, e ∈ sys.sched.events ∨ e.args = 0

variable {sys sys' : System T} {a : SysAct T}

theorem parked_tokens {co : CoroId} {g : Awaited} (hp : sys.Parked co g) :
    0 < sys.tokens co := by
  unfold tokens Machine.tokens queues
  cases g with
  | deadline t =>
    have hcount : 0 < (sys.sched.events.map Event.coro).count co :=
      List.count_pos_iff.mpr (List.mem_map_of_mem hp)
    omega
  | descriptor dir fd =>
    have hcount : 0 < sys.poller.tokens co :=
      List.count_pos_iff.mpr (List.mem_map_of_mem (WaitSets.mem_registrations.mpr hp))
    omega
  | condVar k =>
    have hcount := InQueue.queued_pos hp
    omega
  | latch k =>
    have hcount := InQueue.queued_pos hp
    omega
  | fifo k =>
    have hcount := InQueue.queued_pos hp
    omega

theorem queued_tokens {e : PendingEntry} (hq : sys.Queued e) : 0 < sys.tokens e.1 := by
  unfold tokens Machine.tokens
  rcases hq with hq | hq
  · have hcount : 0 < (sys.toMachine.unprocessed.map Prod.fst).count e.1 :=
      List.count_pos_iff.mpr (List.mem_map_of_mem hq)
    omega
  · have hcount : 0 < (sys.sched.pending.map Prod.fst).count e.1 :=
      List.count_pos_iff.mpr (List.mem_map_of_mem hq)
    omega

/-! ## The calls of a program whose coroutines are alive -/

-- A coroutine that is launched has not been before, and is alive.
theorem call_launch (h : OneToken sys) {co : CoroId} {arg : Arg}
    (hstep : sys.call (.launch co arg) = some sys') :
    sys.launched co = false ∧ (sys.sched.coros co).dead = false ∧
      sys' = { sys.withSched (sys.sched.push [(co, arg)]) with
        launched := Function.update sys.launched co true } := by
  simp only [System.call] at hstep
  split at hstep
  · cases hstep
  next hnew =>
    obtain rfl := Option.some.inj hstep
    have halive : (sys.sched.coros co).dead = false := by
      by_contra hd
      exact hnew (h.dead co (by simpa using hd))
    rw [Sched.schedule_alive halive]
    exact ⟨by simpa using hnew, halive, rfl⟩

/-- What a call that may block makes of the program, when the coroutine `co` is resumed by entry
    `i`. -/
inductive Blocks (sys : System T) (co : CoroId) (i : Nat) : WaitCall → System T → Prop
  | sleep (now : Timeval) (msec : Int) :
      Blocks sys co i (.sleep now msec)
        (sys.yielded ((sys.sched.insertEvent (sleepDeadline now msec) co 0).yield co 0) i)
  | waitFor (dir : Direction) (fd : Fd) :
      Blocks sys co i (.waitFor dir fd)
        { sys.yielded (sys.sched.yield co 0) i with
          poller := { sys.poller with toWaitSets := sys.poller.setWaitFor dir fd co } }
  | cvWait {k : Nat} {cv : CondVar} (hk : sys.cvs[k]? = some cv) :
      Blocks sys co i (.cvWait k)
        { sys.yielded (sys.sched.yield co 0) i with cvs := sys.cvs.set k ⟨cv.waiting ++ [co]⟩ }
  | latchDone {k : Nat} {l : Latch} (hk : sys.latches[k]? = some l) (hdone : l.done = true) :
      Blocks sys co i (.latchWait k) sys
  | latchWait {k : Nat} {l : Latch} (hk : sys.latches[k]? = some l) (hdone : l.done = false) :
      Blocks sys co i (.latchWait k)
        { sys.yielded (sys.sched.yield co 0) i with
          latches := sys.latches.set k { l with cv := ⟨l.cv.waiting ++ [co]⟩ } }
  | pop (k : Nat) : Blocks sys co i (.pop k) (sys.popTest co k i)

theorem block_blocks {co : CoroId} {i : Nat} (hcur : sys.sched.current = some co) {c : WaitCall}
    (hstep : sys.block co i c = some sys') : Blocks sys co i c sys' := by
  cases c with
  | sleep now msec =>
    simp only [System.block, hcur] at hstep
    obtain rfl := Option.some.inj hstep
    exact .sleep now msec
  | waitFor dir fd =>
    simp only [System.block, hcur] at hstep
    obtain rfl := Option.some.inj hstep
    exact .waitFor dir fd
  | cvWait k =>
    rcases Option.bind_eq_some_iff.mp hstep with ⟨cv, hk, hwait⟩
    rw [CondVar.wait_current hcur] at hwait
    obtain rfl := Option.some.inj hwait
    exact .cvWait hk
  | latchWait k =>
    rcases Option.bind_eq_some_iff.mp hstep with ⟨l, hk, hwait⟩
    cases hdone : l.done with
    | true =>
      rw [if_pos hdone] at hwait
      obtain rfl := Option.some.inj hwait
      exact .latchDone hk hdone
    | false =>
      have hnot : ¬l.done = true := by simp [hdone]
      rw [if_neg hnot, Latch.wait, if_neg hnot, CondVar.wait_current hcur] at hwait
      obtain rfl := Option.some.inj hwait
      exact .latchWait hk hdone
  | pop k =>
    obtain rfl := Option.some.inj hstep
    exact .pop k

-- A poll wakes live coroutines, and comes back to `event_loop`.
theorem pollReturn_alive (h : OneToken sys) {rule : TopRule} {tv : Timeval} {r : PollResponse}
    (hstep : sys.pollReturn rule tv r = some sys') :
    ∃ (p : PollPoller) (woken : List Wait),
      sys' = { sys with
        toMachine := Machine.loopHead rule tv (sys.sched.push (woken.map Wait.entry)), poller := p } ∧
      sys.poller.registrations.Perm (woken ++ p.registrations) ∧
      (∀ v ∈ woken, sys.poller.Reports r v.dir v.fd) ∧
      (∀ v ∈ woken, (sys.sched.coros v.co).dead = false) ∧
      ∀ c, sys.poller.tokens c = (woken.map Wait.co).count c + p.tokens c := by
  have hregistered : ∀ v, sys.poller.Registered v → (sys.sched.coros v.co).dead = false :=
    fun v hv => h.alive (parked_tokens (g := .descriptor v.dir v.fd) hv)
  unfold System.pollReturn at hstep
  cases hpoll : sys.poller.poll sys.sched r with
  | none =>
    rw [hpoll] at hstep
    cases hstep
  | some out =>
    rw [hpoll] at hstep
    rcases PollPoller.poll_alive hpoll hregistered with ⟨p, woken, rfl, hperm, hreports⟩
    refine ⟨p, woken, (Option.some.inj hstep).symm, hperm, hreports, fun v hv => ?_, fun c => ?_⟩
    · apply hregistered v
      exact WaitSets.mem_registrations.mp (hperm.mem_iff.mpr (List.mem_append_left _ hv))
    · unfold WaitSets.tokens
      rw [(hperm.map Wait.co).count_eq, List.map_append, List.count_append]

/-! ## Calls that do not block -/

theorem queued_push {s : Sched} {pc : Pc} {es : List PendingEntry} {entry : PendingEntry}
    (hq : Machine.Queued ⟨s.push es, pc⟩ entry) : Machine.Queued ⟨s, pc⟩ entry ∨ entry ∈ es := by
  rcases hq with hq | hq
  · rw [Machine.unprocessed_congr pc (show (s.push es).staging = s.staging from rfl)] at hq
    exact .inl (.inl hq)
  · rcases List.mem_append.mp hq with hq | hq
    · exact .inl (.inr hq)
    · exact .inr hq

-- Entries are added to `_pending`, each with its cause, and nobody else starts to wait.
theorem Explained.pushed (es : List PendingEntry)
    (hm : sys'.toMachine = ⟨sys.sched.push es, sys.pc⟩)
    (hparked : ∀ co g, sys'.Parked co g → sys.Parked co g)
    (hes : ∀ co arg, (co, arg) ∈ es → sys.Releases a co arg) : Explained sys a sys' where
  parked := fun co g hp => .inl (hparked co g hp)
  queued := by
    intro co arg hq
    rw [hm] at hq
    exact (queued_push hq).imp id (hes co arg)
  timers := by
    rw [hm]
    exact fun e he => .inl he

theorem Explained.refl (sys : System T) (a : SysAct T) : Explained sys a sys :=
  ⟨fun _ _ hp => .inl hp, fun _ _ hq => .inl hq, fun _ he => .inl he⟩

theorem Explained.same {sys₁ : System T} (h : Explained sys a sys₁)
    (hm : sys'.toMachine = sys₁.toMachine)
    (hparked : ∀ co g, sys'.Parked co g → sys₁.Parked co g) : Explained sys a sys' where
  parked := fun co g hp => h.parked co g (hparked co g hp)
  queued := by
    rw [hm]
    exact h.queued
  timers := by
    rw [hm]
    exact h.timers

theorem mem_take_one {co : CoroId} {arg arg' : Arg} {l : List CoroId}
    (h : ((co, arg') : PendingEntry) ∈ (l.take 1).map fun c => (c, arg)) :
    l.head? = some co ∧ arg' = arg := by
  cases l with
  | nil => cases h
  | cons c rest =>
    rcases Prod.mk.inj (List.mem_singleton.mp h) with ⟨rfl, rfl⟩
    exact ⟨rfl, rfl⟩

theorem Explained.wakeOne (h : OneToken sys) {k : Nat} {cv : CondVar}
    (hk : sys.cvs[k]? = some cv) (arg : Arg)
    (hends : sys.Ends a (.condVar k) arg) :
    Explained sys a { sys.withSched (cv.wakeOne sys.sched arg).state.2.2 with
      cvs := sys.cvs.set k (cv.wakeOne sys.sched arg).state.2.1 } := by
  rcases CondVar.wakeOne_alive (h.alive_cv hk) arg with ⟨ret, hwake⟩
  rw [hwake]
  refine .pushed ((cv.waiting.take 1).map fun co => (co, arg)) rfl (fun co g hp => ?_)
    fun co arg' hmem => ?_
  · cases g with
    | condVar j => exact InQueue.of_set_subset hk (List.tail_sublist _).subset hp
    | deadline t => exact hp
    | descriptor dir fd => exact hp
    | latch j => exact hp
    | fifo j => exact hp
  · rcases mem_take_one hmem with ⟨hhead, rfl⟩
    exact .inr ⟨.condVar k, ⟨cv, hk, List.mem_of_head? hhead⟩, ⟨cv, hk, hhead⟩, hends⟩

theorem Explained.latchWakeAll (h : OneToken sys) {k : Nat} {l : Latch}
    (hk : sys.latches[k]? = some l) :
    Explained sys (.call (.latchWakeAll k)) { sys.withSched (l.wakeAll sys.sched).state.2 with
      latches := sys.latches.set k (l.wakeAll sys.sched).state.1 } := by
  rcases CondVar.wakeOne_alive (h.alive_latch hk) 0 with ⟨ret, hwake⟩
  rw [Latch.wakeAll, CondVar.wakeAll_eq_wakeOne, hwake]
  refine .pushed ((l.cv.waiting.take 1).map fun co => (co, 0)) rfl (fun co g hp => ?_)
    fun co arg hmem => ?_
  · cases g with
    | latch j => exact InQueue.of_set_subset hk (List.tail_sublist _).subset hp
    | deadline t => exact hp
    | descriptor dir fd => exact hp
    | condVar j => exact hp
    | fifo j => exact hp
  · rcases mem_take_one hmem with ⟨hhead, rfl⟩
    exact .inr ⟨.latch k, ⟨l, hk, List.mem_of_head? hhead⟩, ⟨l, hk, hhead⟩, rfl, rfl⟩

theorem Explained.push (h : OneToken sys) {k : Nat} {f : Fifo T} (hk : sys.fifos[k]? = some f)
    (x : T) :
    Explained sys (.call (.push k x)) { sys.withSched (f.push sys.sched x).state.2 with
      fifos := sys.fifos.set k (f.push sys.sched x).state.1
      pushes := sys.pushes ++ [(k, x)] } := by
  rcases CondVar.wakeOne_alive (h.alive_fifo hk) 0 with ⟨ret, hwake⟩
  rw [Fifo.push, hwake]
  refine .pushed ((f.cv.waiting.take 1).map fun co => (co, 0)) rfl (fun co g hp => ?_)
    fun co arg hmem => ?_
  · cases g with
    | fifo j => exact InQueue.of_set_subset hk (List.tail_sublist _).subset hp
    | deadline t => exact hp
    | descriptor dir fd => exact hp
    | condVar j => exact hp
    | latch j => exact hp
  · rcases mem_take_one hmem with ⟨hhead, rfl⟩
    exact .inr ⟨.fifo k, ⟨f, hk, List.mem_of_head? hhead⟩, ⟨f, hk, hhead⟩, rfl, rfl⟩

theorem Explained.call (h : OneToken sys) {c : UserCall T} (hstep : sys.call c = some sys') :
    Explained sys (.call c) sys' := by
  cases c with
  | newCondVar =>
    obtain rfl := Option.some.inj hstep
    refine (Explained.refl sys _).same rfl fun co g hp => ?_
    cases g with
    | condVar k => exact InQueue.of_append (x := ({} : CondVar)) rfl hp
    | deadline t => exact hp
    | descriptor dir fd => exact hp
    | latch k => exact hp
    | fifo k => exact hp
  | newLatch =>
    obtain rfl := Option.some.inj hstep
    refine (Explained.refl sys _).same rfl fun co g hp => ?_
    cases g with
    | latch k => exact InQueue.of_append (x := ({} : Latch)) rfl hp
    | deadline t => exact hp
    | descriptor dir fd => exact hp
    | condVar k => exact hp
    | fifo k => exact hp
  | newFifo =>
    obtain rfl := Option.some.inj hstep
    refine (Explained.refl sys _).same rfl fun co g hp => ?_
    cases g with
    | fifo k => exact InQueue.of_append (x := ({} : Fifo T)) rfl hp
    | deadline t => exact hp
    | descriptor dir fd => exact hp
    | condVar k => exact hp
    | latch k => exact hp
  | launch co arg =>
    rcases call_launch h hstep with ⟨hlaunched, -, rfl⟩
    refine .pushed [(co, arg)] rfl (fun c g hp => ?_) fun c arg' hmem => ?_
    · cases g <;> exact hp
    · obtain ⟨rfl, rfl⟩ := Prod.mk.inj (List.mem_singleton.mp hmem)
      exact .inl ⟨rfl, hlaunched⟩
  | exit =>
    obtain rfl := Option.some.inj hstep
    exact ⟨fun co g hp => .inl (by cases g <;> exact hp), fun co arg hq => .inl hq,
      fun e he => .inl he⟩
  | wakeOne k arg =>
    rcases Option.map_eq_some_iff.mp hstep with ⟨cv, hk, rfl⟩
    exact .wakeOne h hk arg ⟨rfl, rfl⟩
  | wakeAll k arg =>
    rcases Option.map_eq_some_iff.mp hstep with ⟨cv, hk, rfl⟩
    exact .wakeOne h hk arg ⟨rfl, rfl⟩
  | latchWakeAll k =>
    rcases Option.map_eq_some_iff.mp hstep with ⟨l, hk, rfl⟩
    exact .latchWakeAll h hk
  | push k x =>
    rcases Option.map_eq_some_iff.mp hstep with ⟨f, hk, rfl⟩
    exact .push h hk x

/-! ## Calls that block -/

-- The running coroutine yields, after it has left an entry in a container.
theorem Explained.blocked {sys₁ : System T} (h : Explained sys a sys₁) {i : Nat} {co : CoroId}
    (es : List Event) (hpc : sys₁.pc = .inside i)
    (hm : sys'.toMachine =
      ⟨({ sys₁.sched with events := es } : Sched).yield co 0, .staging (i + 1)⟩)
    (hes : ∀ e ∈ es, e ∈ sys₁.sched.events ∨ e.args = 0)
    (hparked : ∀ c g, sys'.Parked c g → sys₁.Parked c g ∨ sys.Parks a c g) :
    Explained sys a sys' where
  parked := fun c g hp => (hparked c g hp).elim (h.parked c g) .inr
  queued := by
    intro c arg hq
    apply h.queued
    rw [hm] at hq
    unfold Machine.Queued at hq ⊢
    rw [Machine.unprocessed_inside hpc]
    exact hq
  timers := by
    rw [hm]
    exact fun e he => (hes e he).elim (h.timers e) .inr

theorem Explained.popTest {sys₁ : System T} (h : Explained sys a sys₁) {i : Nat} {co : CoroId}
    (hpc : sys₁.pc = .inside i) (hcur : sys₁.sched.current = some co) {k : Nat}
    (hparks : sys.Parks a co (.fifo k)) : Explained sys a (sys₁.popTest co k i) := by
  unfold System.popTest
  cases hk : sys₁.fifos[k]? with
  | none => exact h
  | some f =>
    dsimp only
    cases htest : f.test with
    | none =>
      rw [CondVar.wait_current hcur]
      refine h.blocked sys₁.sched.events hpc rfl (fun e he => .inl he) fun c g hp => ?_
      cases g with
      | fifo j =>
        rcases InQueue.of_set_append hk rfl hp with hold | ⟨rfl, rfl⟩
        · exact .inl hold
        · exact .inr hparks
      | deadline t => exact .inl hp
      | descriptor dir fd => exact .inl hp
      | condVar j => exact .inl hp
      | latch j => exact .inl hp
    | some r =>
      rcases r with ⟨x, f'⟩
      refine h.same rfl fun c g hp => ?_
      cases g with
      | fifo j =>
        refine InQueue.of_set_subset hk ?_ hp
        rw [(Fifo.test_some htest).2]
        exact List.Subset.refl _
      | deadline t => exact hp
      | descriptor dir fd => exact hp
      | condVar j => exact hp
      | latch j => exact hp

theorem Explained.block (h : OneToken sys) {i : Nat} {co : CoroId} (hpc : sys.pc = .inside i)
    (hr : sys.running = some co) {c : WaitCall} (hstep : sys.block co i c = some sys') :
    Explained sys (.block c) sys' := by
  have hcur := h.current hpc hr
  have hparks : sys.Parks (.block c) co c.awaited := .inl ⟨c, rfl, hr, rfl⟩
  cases block_blocks hcur hstep with
  | sleep now msec =>
    refine (Explained.refl sys _).blocked (⟨sleepDeadline now msec, 0, co⟩ :: sys.sched.events)
      hpc rfl (fun e he => ?_) fun c g hp => ?_
    · rcases List.mem_cons.mp he with rfl | hold
      · exact .inr rfl
      · exact .inl hold
    cases g with
    | deadline t =>
      rcases List.mem_cons.mp hp with heq | hold
      · injection heq with ht _ hco
        rw [ht, hco]
        exact .inr hparks
      · exact .inl hold
    | descriptor dir fd => exact .inl hp
    | condVar j => exact .inl hp
    | latch j => exact .inl hp
    | fifo j => exact .inl hp
  | waitFor dir fd =>
    refine (Explained.refl sys _).blocked sys.sched.events hpc rfl (fun e he => .inl he) fun c g hp => ?_
    cases g with
    | descriptor dir' fd' =>
      have hreg := WaitSets.registered_setWaitFor.mp hp
      split at hreg
      next hkey =>
        obtain ⟨rfl : dir' = dir, rfl : fd' = fd⟩ := hkey
        obtain rfl : c = co := hreg
        exact .inr hparks
      next => exact .inl hreg
    | deadline t => exact .inl hp
    | condVar j => exact .inl hp
    | latch j => exact .inl hp
    | fifo j => exact .inl hp
  | cvWait hk =>
    refine (Explained.refl sys _).blocked sys.sched.events hpc rfl (fun e he => .inl he) fun c g hp => ?_
    cases g with
    | condVar j =>
      rcases InQueue.of_set_append hk rfl hp with hold | ⟨rfl, rfl⟩
      · exact .inl hold
      · exact .inr hparks
    | deadline t => exact .inl hp
    | descriptor dir fd => exact .inl hp
    | latch j => exact .inl hp
    | fifo j => exact .inl hp
  | latchDone hk hdone => exact .refl sys _
  | latchWait hk hdone =>
    refine (Explained.refl sys _).blocked sys.sched.events hpc rfl (fun e he => .inl he) fun c g hp => ?_
    cases g with
    | latch j =>
      rcases InQueue.of_set_append hk rfl hp with hold | ⟨rfl, rfl⟩
      · exact .inl hold
      · exact .inr hparks
    | deadline t => exact .inl hp
    | descriptor dir fd => exact .inl hp
    | condVar j => exact .inl hp
    | fifo j => exact .inl hp
  | pop k => exact (Explained.refl sys _).popTest hpc hcur hparks

/-! ## The scheduler -/

-- A pass over the timers of live coroutines.
theorem scheduleEvents_fires (rule : TopRule) (tv : Timeval) {s : Sched}
    (halive : ∀ e ∈ s.events, (s.coros e.coro).dead = false) :
    ∃ fired left, s.scheduleEvents rule tv =
        .returned { s.push (fired.map Event.entry) with events := left } ∧
      (fired ++ left).Perm s.events ∧ (∀ e ∈ fired, timercmpLt e.t tv = true) ∧
      ∀ e ∈ left, timercmpLt e.t tv = false := by
  rcases Sched.scheduleEvents_exact rule tv s with ⟨r, hout, hperm, -, hdue, hleft, hdead⟩
  cases hz : r.zombie with
  | none =>
    rw [hz, Option.toList_none, List.append_nil] at hperm
    refine ⟨r.fired, r.left, ?_, hperm, hdue, hleft hz⟩
    rw [hout, Sched.swept, hz]
  | some z =>
    have hmem : z ∈ s.events := by
      apply hperm.subset
      rw [hz]
      simp
    have hlive := halive z hmem
    rw [(hdead z hz).2] at hlive
    cases hlive

-- A pass over the timers, after a step that is explained.
theorem Explained.pass {sys₁ : System T} (h : Explained sys a sys₁)
    (hevents : sys₁.sched.events = sys.sched.events) {s : Sched} {pc : Pc}
    (hs : s.events = sys₁.sched.events)
    (hqueued : ∀ entry, Machine.Queued ⟨s, pc⟩ entry → sys₁.Queued entry)
    (halive : ∀ e ∈ s.events, (s.coros e.coro).dead = false)
    (hargs : ∀ e ∈ sys.sched.events, e.args = 0) (rule : TopRule) {tv : Timeval}
    (hends : ∀ t, timercmpLt t tv = true → sys.Ends a (.deadline t) 0) :
    Explained sys a (sys₁.withMachine (Machine.resolve (s.scheduleEvents rule tv) pc)) := by
  rcases scheduleEvents_fires rule tv halive with ⟨fired, left, hout, hperm, hdue, -⟩
  rw [hout]
  have hmem : ∀ e ∈ fired ++ left, e ∈ sys.sched.events := by
    intro e he
    rw [← hevents, ← hs]
    exact hperm.subset he
  refine ⟨fun co g hp => ?_, fun co arg hq => ?_, fun e he => ?_⟩
  · cases g with
    | deadline t => exact .inl (hmem _ (List.mem_append_right _ hp))
    | descriptor dir fd => exact h.parked co (.descriptor dir fd) hp
    | condVar k => exact h.parked co (.condVar k) hp
    | latch k => exact h.parked co (.latch k) hp
    | fifo k => exact h.parked co (.fifo k) hp
  · have hsplit : Machine.Queued ⟨s, pc⟩ (co, arg) ∨ (co, arg) ∈ fired.map Event.entry :=
      queued_push hq
    rcases hsplit with hold | hnew
    · exact h.queued co arg (hqueued _ hold)
    · rcases List.mem_map.mp hnew with ⟨e, he, hentry⟩
      obtain ⟨rfl, rfl⟩ := Prod.mk.inj hentry
      have hin := hmem e (List.mem_append_left _ he)
      have hzero := hargs e hin
      refine .inr (.inr ⟨.deadline e.t, ?_, trivial, ?_⟩)
      · change (⟨e.t, 0, e.coro⟩ : Event) ∈ _
        rw [← hzero]
        exact hin
      · rw [hzero]
        exact hends e.t (hdue e he)
  · exact .inl (hmem e (List.mem_append_right _ he))

-- Outside a round, moving control leaves the queue as it is.
theorem queued_between {s : Sched} {p q : Pc} (hround : p.inRound = false)
    {entry : PendingEntry} (hq : Machine.Queued ⟨s, p⟩ entry) : Machine.Queued ⟨s, q⟩ entry :=
  .inr (hq.pending hround)

theorem Explained.loopHead {sys₁ : System T} (h : Explained sys a sys₁) (ht : OneToken sys₁)
    (hevents : sys₁.sched.events = sys.sched.events)
    (hargs : ∀ e ∈ sys.sched.events, e.args = 0) (rule : TopRule) {tv : Timeval}
    (hends : ∀ t, timercmpLt t tv = true → sys.Ends a (.deadline t) 0) :
    Explained sys a (sys₁.withMachine (Machine.loopHead rule tv sys₁.sched)) := by
  unfold Machine.loopHead
  split
  · refine ⟨fun co g hp => h.parked co g (by cases g <;> exact hp), fun co arg hq => ?_, h.timers⟩
    exact h.queued co arg (queued_between (p := .outside) (q := sys₁.pc) rfl hq)
  · exact h.pass hevents rfl (fun entry hq => queued_between (p := .runPending) rfl hq)
      ht.alive_events hargs rule hends

theorem Explained.test (h : OneToken sys) {m : Machine} (hstep : sys.toMachine.step .test = some m) :
    Explained sys .test (sys.withMachine m) := by
  rcases Machine.step_test hstep with ⟨hpc, hm⟩
  have hround : sys.pc.inRound = false := by
    rw [hpc]
    rfl
  rcases hm with ⟨rfl, -⟩ | ⟨rfl, -⟩ | ⟨rfl, -⟩
  · refine ⟨fun co g hp => .inl (by cases g <;> exact hp), fun co arg hq => ?_, fun e he => .inl he⟩
    rcases hq with hq | hq
    · exact .inl (.inr hq)
    · rw [show (sys.withMachine ⟨sys.sched.swapLists, .staging 0⟩).sched.pending = [] from
        h.between hround] at hq
      exact absurd hq List.not_mem_nil
  · refine ⟨fun co g hp => .inl (by cases g <;> exact hp), fun co arg hq => ?_, fun e he => .inl he⟩
    exact .inl (queued_between (p := .outside) rfl hq)
  · refine ⟨fun co g hp => .inl (by cases g <;> exact hp), fun co arg hq => ?_, fun e he => .inl he⟩
    exact .inl (queued_between (p := .polling) rfl hq)

-- A resume takes one entry off the queue; a consumer that finds its fifo empty waits again.
theorem Explained.next (h : OneToken sys) (hargs : ∀ e ∈ sys.sched.events, e.args = 0)
    (rule : TopRule) (tv : Timeval) {i : Nat} (hpc : sys.pc = .staging i) :
    Explained sys (.next rule tv) ((sys.withMachine (sys.toMachine.nextEntry rule tv i)).goOn i) := by
  cases hget : sys.sched.staging[i]? with
  | none =>
    have hpass : Explained sys (.next rule tv) (sys.withMachine (Machine.resolve
        (({ sys.sched with staging := [] } : Sched).scheduleEvents rule tv) .runPending)) := by
      refine (Explained.refl sys (.next rule tv)).pass rfl (s := { sys.sched with staging := [] })
        rfl (fun entry hq => ?_) h.alive_events hargs rule fun t ht => ⟨ht, rfl⟩
      exact .inr (hq.resolve_left List.not_mem_nil)
    obtain ⟨s', hs⟩ := Sched.scheduleEvents_alive rule tv (s := { sys.sched with staging := [] })
      h.alive_events
    rw [hs] at hpass
    rw [Machine.nextEntry_none hget, hs]
    exact hpass
  | some entry =>
    rcases entry with ⟨co, arg⟩
    rcases h.nextEntry rule tv hpc with ⟨hnext, -⟩
    have halive : (sys.sched.coros co).dead = false := by
      apply h.alive
      apply queued_tokens (e := (co, arg))
      left
      rw [Machine.unprocessed_staging hpc, Machine.drop_of_some hget]
      exact .head _
    rw [Machine.nextEntry_some hget, Sched.resume_alive halive] at hnext ⊢
    change Explained sys _ ((sys.withMachine ⟨sys.sched.switchTo co arg, .inside i⟩).goOn i)
    have hrun : (sys.withMachine ⟨sys.sched.switchTo co arg, .inside i⟩).running = some co := by
      change (sys.sched.staging[i]?).map Prod.fst = some co
      rw [hget]
      rfl
    have hresumed : Explained sys (.next rule tv)
        (sys.withMachine ⟨sys.sched.switchTo co arg, .inside i⟩) := by
      refine ⟨fun c g hp => .inl (by cases g <;> exact hp), fun c arg' hq => .inl ?_,
        fun e he => .inl he⟩
      rcases hq with hq | hq
      · left
        rw [Machine.unprocessed_staging hpc, Machine.drop_of_some hget]
        exact .tail _ hq
      · exact .inr hq
    unfold System.goOn
    rw [hrun]
    dsimp only
    cases hpop : (sys.withMachine ⟨sys.sched.switchTo co arg, .inside i⟩).popping co with
    | none => exact hresumed
    | some k =>
      exact hresumed.popTest rfl rfl (.inr ⟨rule, tv, k, rfl, hpop, rfl⟩)

theorem Explained.finish {i : Nat} {co : CoroId} (hpc : sys.pc = .inside i) :
    Explained sys .finish (sys.withMachine ⟨sys.sched.finish co, .staging (i + 1)⟩) := by
  rcases Machine.finish_eq sys.sched co with ⟨coros, hfin, -⟩
  rw [hfin]
  refine ⟨fun c g hp => .inl (by cases g <;> exact hp), fun c arg hq => .inl ?_,
    fun e he => .inl he⟩
  unfold Machine.Queued at hq ⊢
  rw [Machine.unprocessed_inside hpc]
  exact hq

theorem Explained.pollReturn (h : OneToken sys) (hargs : ∀ e ∈ sys.sched.events, e.args = 0)
    (hpc : sys.pc = .polling) {rule : TopRule} {tv : Timeval} {r : PollResponse}
    (hstep : sys.pollReturn rule tv r = some sys') :
    Explained sys (.pollReturn rule tv r) sys' := by
  rcases pollReturn_alive h hstep with ⟨p, woken, rfl, hperm, hreports, -, hcount⟩
  have hround : sys.pc.inRound = false := by
    rw [hpc]
    rfl
  have hleft : ∀ v ∈ woken ++ p.registrations, sys.poller.Registered v :=
    fun v hv => WaitSets.mem_registrations.mp (hperm.mem_iff.mpr hv)
  have hpolled : Explained sys (.pollReturn rule tv r)
      { sys with sched := sys.sched.push (woken.map Wait.entry), poller := p } := by
    refine .pushed (woken.map Wait.entry) rfl (fun co g hp => ?_) fun co arg hmem => ?_
    · cases g with
      | descriptor dir fd =>
        exact hleft _ (List.mem_append_right _ (WaitSets.mem_registrations.mpr hp))
      | deadline t => exact hp
      | condVar k => exact hp
      | latch k => exact hp
      | fifo k => exact hp
    · rcases List.mem_map.mp hmem with ⟨v, hv, hentry⟩
      obtain ⟨rfl, rfl⟩ := Prod.mk.inj hentry
      exact .inr ⟨.descriptor v.dir v.fd, hleft v (List.mem_append_left _ hv), trivial,
        hreports v hv, rfl⟩
  exact hpolled.loopHead (h.polled hpc hcount) rfl hargs rule fun t ht => ⟨ht, rfl⟩

theorem Explained.step (h : OneToken sys) (hargs : ∀ e ∈ sys.sched.events, e.args = 0)
    (hstep : sys.step a = some sys') : Explained sys a sys' := by
  cases a with
  | enter rule tv =>
    rcases step_enter hstep with ⟨-, rfl⟩
    exact (Explained.refl sys _).loopHead h rfl hargs rule fun t ht => ⟨ht, rfl⟩
  | test =>
    rcases step_test hstep with ⟨m, hm, rfl⟩
    exact .test h hm
  | next rule tv =>
    rcases step_next hstep with ⟨i, hpc, rfl⟩
    exact .next h hargs rule tv hpc
  | finish =>
    rcases step_finish hstep with ⟨i, co, hpc, -, rfl⟩
    exact .finish hpc
  | pollReturn rule tv r =>
    rcases step_pollReturn hstep with ⟨hpc, hpoll⟩
    exact .pollReturn h hargs hpc hpoll
  | call c => exact .call h (step_call hstep).2
  | block c =>
    rcases step_block hstep with ⟨i, co, hpc, hr, hblock⟩
    exact .block h hpc hr hblock

end System

end Coropp
