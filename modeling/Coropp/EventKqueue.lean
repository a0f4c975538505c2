import Coropp.Sched
import Coropp.Lib.Maps
import Coropp.Lib.Transition

/-!
# `class kqueue_poller`

The change list, the kernel's side of the queue, and the dispatch of the events.  Waits and signal
handlers go through one list and one untyped `udata`, and the dispatch takes every `udata` for a
coroutine.
-/

namespace Coropp

open Transition

/-- A `kevent_handler`, by its address. -/
abbrev HandlerId := Nat

/-- `EVFILT_READ`, `EVFILT_WRITE` and `EVFILT_SIGNAL`. -/
inductive Filter where
  | read
  | write
  | signal
deriving DecidableEq, Repr

/-- What a `void * udata` points to. -/
inductive Udata where
  | coro (c : CoroId)
  | handler (f : HandlerId)
deriving DecidableEq, Repr

def evAdd : BitVec 16 := 0x0001

def evEnable : BitVec 16 := 0x0004

def evOneshot : BitVec 16 := 0x0010

def evEof : BitVec 16 := 0x8000

/-- `struct kevent`. -/
structure Kevent where
  ident : Int
  filter : Filter
  flags : BitVec 16
  fflags : BitVec 32 := 0
  data : Int := 0
  udata : Udata
deriving DecidableEq, Repr

/-- `struct timespec`. -/
structure Timespec where
  sec : Int
  nsec : Int
deriving DecidableEq, Repr

/-- The arguments of one call of `kevent`. -/
structure KeventCall where
  changelist : List Kevent
  nevents : Nat
  timeout : Timespec
deriving DecidableEq, Repr

/-- `changeList` is the part of `_change_list` in use, so that `_change_index` is its length. -/
structure KqueuePoller where
  outputMax : Nat
  changeList : List Kevent := []
deriving DecidableEq, Repr

/-! ## The kernel -/

/-- What is registered with the queue under an ident and a filter. -/
abbrev Knotes := Int × Filter → Option Udata

/-- An event as it happens, before the kernel adds the `udata` of its registration. -/
structure Notice where
  ident : Int
  filter : Filter
  flags : BitVec 16
  fflags : BitVec 32
  data : Int
deriving DecidableEq, Repr

/-- What `kevent` answers: events, or a failure after it has applied some of the changes. -/
inductive KeventAnswer where
  | events (ns : List Notice)
  | failed (applied : Nat)
deriving DecidableEq, Repr

namespace Knotes

-- EV_ADD: a registration takes the place of one for the same ident and filter
def change (k : Knotes) (ke : Kevent) : Knotes :=
  Function.update k (ke.ident, ke.filter) (some ke.udata)

def apply (k : Knotes) (changes : List Kevent) : Knotes := changes.foldl change k

/-- EV_ONESHOT: a registration leaves the queue with its event. -/
def deliver (k : Knotes) : List Notice → Option (List Kevent × Knotes)
  | [] => some ([], k)
  | n :: ns =>
    (k (n.ident, n.filter)).bind fun u =>
      (deliver (Function.update k (n.ident, n.filter) none) ns).map fun r =>
        (⟨n.ident, n.filter, n.flags, n.fflags, n.data, u⟩ :: r.1, r.2)

end Knotes

/-! ## The poller -/

/-- How `poll` ends: as the calls of `schedule` do, or by throwing `OS_Error ("kevent", n)`, or on
    a call of `schedule` on the address of a signal handler, which C++ leaves undefined. -/
inductive KqueueEnd where
  | ended (out : Outcome Sched)
  | osError (n : Int) (s : Sched)
  | misread (s : Sched)

def KqueueEnd.state : KqueueEnd → Sched
  | ended out => out.state
  | osError _ s => s
  | misread s => s

namespace KqueuePoller

def changeIndex (p : KqueuePoller) : Nat := p.changeList.length

/-- `_change_list[_change_index++] = ke`.  Nothing keeps the index below `_output_max`: beyond it,
    the write is outside the array. -/
def change (p : KqueuePoller) (ke : Kevent) : Option KqueuePoller :=
  if p.changeIndex < p.outputMax then some { p with changeList := p.changeList ++ [ke] } else none

def setWaitFor (p : KqueuePoller) (fd : Int) (c : CoroId) (filter : Filter) : Option KqueuePoller :=
  p.change ⟨fd, filter, evAdd ||| evEnable ||| evOneshot, 0, 0, .coro c⟩

def setWaitForRead (p : KqueuePoller) (fd : Int) (c : CoroId) : Option KqueuePoller :=
  p.setWaitFor fd c .read

def setWaitForWrite (p : KqueuePoller) (fd : Int) (c : CoroId) : Option KqueuePoller :=
  p.setWaitFor fd c .write

def setSignalHandler (p : KqueuePoller) (signum : Int) (f : HandlerId) : Option KqueuePoller :=
  p.change ⟨signum, .signal, evAdd ||| evOneshot, 0, 0, .handler f⟩

/-- The call of `kevent` that `poll (timeout_usec)` makes. -/
def call (p : KqueuePoller) (timeoutUsec : Int) : KeventCall :=
  -- "poll() timeout < 0 ??"
  let timeoutUsec := if timeoutUsec < 0 then 0 else timeoutUsec
  { changelist := p.changeList
    nevents := p.outputMax
    timeout := ⟨timeoutUsec.tdiv 1000000, timeoutUsec.tmod 1000000 * 1000⟩ }

/-- What a waiter is scheduled with: the error that came with the end of file, if any. -/
def waiterArg (kp : Kevent) : Arg :=
  if kp.flags &&& evEof ≠ 0 ∧ kp.fflags ≠ 0 then kp.fflags.toNat else 0

/-- `for (int i = 0; i < n; i++)`. -/
def dispatch : List Kevent → Sched → KqueueEnd
  | [], s => .ended (.returned s)
  | kp :: kps, s =>
    -- coro * c = (coro *) kp->udata, whatever the filter
    match kp.udata with
    | .handler _ => .misread s
    | .coro c =>
      match s.schedule c (waiterArg kp) with
      | .returned s => dispatch kps s
      | .deadCoro z s => .ended (.deadCoro z s)

/-- What a `poll` leaves. -/
structure Polled where
  poller : KqueuePoller
  kernel : Knotes
  events : List Kevent
  ending : KqueueEnd

/-- `poll`, when the kernel answers `a`.  It answers no more events than asked for, and events of
    registered filters only. -/
def poll (p : KqueuePoller) (k : Knotes) (s : Sched) (timeoutUsec : Int) (a : KeventAnswer) :
    Option Polled :=
  let c := p.call timeoutUsec
  let p := { p with changeList := [] }
  match a with
  | .events ns =>
    if c.nevents < ns.length then none
    else
      ((k.apply c.changelist).deliver ns).map fun r => ⟨p, r.2, r.1, dispatch r.1 s⟩
  | .failed applied => some ⟨p, k.apply (c.changelist.take applied), [], .osError (-1) s⟩

end KqueuePoller

/-! ## Histories -/

/-- `defined` turns false where a registration is written outside `_change_list`, and where the
    address of a handler is taken for a coroutine; nothing is known of what happens after that. -/
structure KqueueWorld where
  poller : KqueuePoller
  kernel : Knotes := fun _ => none
  sched : Sched := {}
  defined : Bool := true

inductive KqueueOp where
  | setWaitForRead (fd : Int) (c : CoroId)
  | setWaitForWrite (fd : Int) (c : CoroId)
  | setSignalHandler (signum : Int) (f : HandlerId)
  | poll (timeoutUsec : Int) (a : KeventAnswer)
  -- the rest of the program
  | others (s : Sched)

/-- What a poll does for an event. -/
inductive Action where
  | scheduled (c : CoroId) (arg : Arg)
  | called (f : HandlerId) (kp : Kevent)
deriving DecidableEq

/-- What an event is owed, by its registration. -/
def Kevent.due (kp : Kevent) : Action :=
  match kp.udata with
  | .coro c => .scheduled c (KqueuePoller.waiterArg kp)
  | .handler f => .called f kp

namespace KqueueWorld

def register (w : KqueueWorld) (p : Option KqueuePoller) : KqueueWorld :=
  match p with
  | some p => { w with poller := p }
  | none => { w with defined := false }

def afterPoll (r : KqueuePoller.Polled) : KqueueWorld where
  poller := r.poller
  kernel := r.kernel
  sched := r.ending.state
  defined :=
    match r.ending with
    | .misread _ => false
    | _ => true

def step (w : KqueueWorld) (op : KqueueOp) : Option KqueueWorld :=
  if w.defined then
    match op with
    | .setWaitForRead fd c => some (w.register (w.poller.setWaitForRead fd c))
    | .setWaitForWrite fd c => some (w.register (w.poller.setWaitForWrite fd c))
    | .setSignalHandler signum f => some (w.register (w.poller.setSignalHandler signum f))
    | .poll timeoutUsec a => (w.poller.poll w.kernel w.sched timeoutUsec a).map afterPoll
    | .others s => some { w with sched := s }
  else none

def Runs (outputMax : Nat) (ops : List KqueueOp) (w : KqueueWorld) : Prop :=
  Run (ofFun step) { poller := ⟨outputMax, []⟩ } ops w

/-- What is registered when the next `kevent` has applied the change list. -/
def registered (w : KqueueWorld) : Knotes := w.kernel.apply w.poller.changeList

/-- The `schedule` calls accepted since `w`. -/
def actions (w w' : KqueueWorld) : List Action :=
  (w'.sched.hist.accepted.drop w.sched.hist.accepted.length).map fun e => .scheduled e.1 e.2

/-- The step from `w` to `w'` does for each event what its registration asks for. -/
def Delivers (w : KqueueWorld) (op : KqueueOp) (w' : KqueueWorld) : Prop :=
  w'.defined = true ∧
    match op with
    | .poll _ (.events ns) =>
      ∀ events k, w.registered.deliver ns = some (events, k) →
        (w.actions w').Perm (events.map Kevent.due)
    | _ => True

/-- A registration finds a free entry, and no event of a poll is a signal or belongs to a dead
    coroutine. -/
def Deliverable (w : KqueueWorld) (op : KqueueOp) : Prop :=
  match op with
  | .setWaitForRead _ _ | .setWaitForWrite _ _ | .setSignalHandler _ _ =>
    w.poller.changeIndex < w.poller.outputMax
  | .poll _ (.events ns) =>
    ∀ n ∈ ns, n.filter ≠ .signal ∧
      ∀ c, w.registered (n.ident, n.filter) = some (.coro c) → (w.sched.coros c).dead = false
  | _ => True

end KqueueWorld

/-! ## The kernel answers with what was registered -/

/-- Signals go to handlers, and descriptors to coroutines. -/
def Udata.Suits (u : Udata) (filter : Filter) : Prop :=
  match u with
  | .coro _ => filter ≠ .signal
  | .handler _ => filter = .signal

namespace Knotes

/-- Every registration suits its filter. -/
def Sorted (k : Knotes) : Prop := ∀ key u, k key = some u → u.Suits key.2

variable {k k' : Knotes}

theorem Sorted.apply (h : k.Sorted) {changes : List Kevent}
    (hch : ∀ ke ∈ changes, ke.udata.Suits ke.filter) : (k.apply changes).Sorted := by
  induction changes generalizing k with
  | nil => exact h
  | cons ke changes ih =>
    apply ih _ fun ke' hke' => hch ke' (.tail _ hke')
    intro key u hu
    rcases Maps.update_eq hu with ⟨rfl, hnew⟩ | ⟨-, hold⟩
    · obtain rfl := Option.some.inj hnew
      exact hch ke (.head _)
    · exact h key u hold

/-- The event is the notice with the `udata` that `k` has for it. -/
structure Stored (k : Knotes) (n : Notice) (kp : Kevent) : Prop where
  filter : kp.filter = n.filter
  flags : kp.flags = n.flags
  fflags : kp.fflags = n.fflags
  udata : k (n.ident, n.filter) = some kp.udata

-- The events are the notices, each with what was stored for it, and nothing new is registered.
theorem deliver_stored {ns : List Notice} {events : List Kevent}
    (h : k.deliver ns = some (events, k')) :
    List.Forall₂ k.Stored ns events ∧ ∀ key u, k' key = some u → k key = some u := by
  induction ns generalizing k events with
  | nil =>
    rcases Prod.mk.inj (Option.some.inj h) with ⟨rfl, rfl⟩
    exact ⟨.nil, fun _ _ hu => hu⟩
  | cons n ns ih =>
    rcases Option.bind_eq_some_iff.mp h with ⟨u, hu, hrest⟩
    rcases Option.map_eq_some_iff.mp hrest with ⟨⟨kps, k''⟩, hdel, heq⟩
    rcases Prod.mk.inj heq with ⟨rfl, rfl⟩
    rcases ih hdel with ⟨hstored, hsub⟩
    have hremove : ∀ key v, Function.update k (n.ident, n.filter) none key = some v →
        k key = some v := by
      intro key v hv
      rcases Maps.update_eq hv with ⟨-, hnone⟩ | ⟨-, hold⟩
      · cases hnone
      · exact hold
    refine ⟨.cons ⟨rfl, rfl, rfl, hu⟩ ?_, fun key v hv => hremove key v (hsub key v hv)⟩
    exact hstored.imp fun n' kp' hst => { hst with udata := hremove _ _ hst.udata }

end Knotes

/-! ## The dispatch -/

/-- The event is for a coroutine that can be scheduled. -/
def Kevent.ForAlive (kp : Kevent) (s : Sched) : Prop :=
  ∃ c, kp.udata = .coro c ∧ (s.coros c).dead = false

namespace KqueuePoller

variable {kp : Kevent} {s : Sched} {c : CoroId}

theorem dispatch_handler {f : HandlerId} (hu : kp.udata = .handler f) (kps : List Kevent)
    (s : Sched) : dispatch (kp :: kps) s = .misread s := by
  simp only [dispatch, hu]

theorem dispatch_alive (hu : kp.udata = .coro c) (h : (s.coros c).dead = false)
    (kps : List Kevent) :
    dispatch (kp :: kps) s = dispatch kps (s.push [(c, waiterArg kp)]) := by
  simp only [dispatch, hu, Sched.schedule_alive h]

theorem dispatch_dead (hu : kp.udata = .coro c) (h : (s.coros c).dead = true)
    (kps : List Kevent) : dispatch (kp :: kps) s = .ended (s.raise c) := by
  simp only [dispatch, hu, Sched.schedule_dead h, Sched.raise]

/-- The loop schedules the coroutines of the first events, up to one that is a signal or belongs to
    a dead coroutine. -/
def Dispatches (kps : List Kevent) (s : Sched) : Prop :=
  ∃ front back es, kps = front ++ back ∧ (∀ kp ∈ front, kp.ForAlive s) ∧
    (dispatch kps s).state.hist.accepted = s.hist.accepted ++ es ∧
    es.map (fun e => Action.scheduled e.1 e.2) = front.map Kevent.due ∧
    (back = [] ∧ dispatch kps s = .ended (.returned (s.push es)) ∨ ∃ kp ∈ back, ¬kp.ForAlive s)

theorem dispatches_stop {kps : List Kevent} (hkp : ¬kp.ForAlive s)
    (hacc : (dispatch (kp :: kps) s).state.hist.accepted = s.hist.accepted) :
    Dispatches (kp :: kps) s := by
  refine ⟨[], kp :: kps, [], rfl, fun _ h => absurd h List.not_mem_nil, ?_, rfl, ?_⟩
  · rw [hacc, List.append_nil]
  · exact .inr ⟨kp, .head _, hkp⟩

theorem dispatches_next {kps : List Kevent} (hu : kp.udata = .coro c)
    (hd : (s.coros c).dead = false) (h : Dispatches kps (s.push [(c, waiterArg kp)])) :
    Dispatches (kp :: kps) s := by
  rcases h with ⟨front, back, es, rfl, hfront, hacc, hes, hend⟩
  refine ⟨kp :: front, back, (c, waiterArg kp) :: es, rfl, ?_, ?_, ?_, ?_⟩
  · exact List.forall_mem_cons.mpr ⟨⟨c, hu, hd⟩, hfront⟩
  · rw [dispatch_alive hu hd, hacc]
    exact List.append_assoc ..
  · rw [List.map_cons, List.map_cons, hes]
    unfold Kevent.due
    rw [hu]
  · rw [Sched.push_push] at hend
    rw [dispatch_alive hu hd]
    exact hend

theorem dispatch_cases (kps : List Kevent) (s : Sched) : Dispatches kps s := by
  induction kps generalizing s with
  | nil =>
    refine ⟨[], [], [], rfl, fun _ h => absurd h List.not_mem_nil, (List.append_nil _).symm, rfl, ?_⟩
    exact .inl ⟨rfl, by rw [Sched.push_nil]; rfl⟩
  | cons kp kps ih =>
    cases hu : kp.udata with
    | handler f =>
      apply dispatches_stop
      · rintro ⟨c, hc, -⟩
        rw [hu] at hc
        cases hc
      · rw [dispatch_handler hu]
        rfl
    | coro c =>
      cases hd : (s.coros c).dead with
      | true =>
        apply dispatches_stop
        · rintro ⟨c', hc', halive⟩
          rw [hu] at hc'
          obtain rfl := Udata.coro.inj hc'
          rw [hd] at halive
          cases halive
        · rw [dispatch_dead hu hd]
          rfl
      | false => exact dispatches_next hu hd (ih _)

-- The dispatch does for every event what it is owed if and only if it can schedule all of them.
theorem dispatch_complete (kps : List Kevent) (s : Sched) :
    ((∀ s', dispatch kps s ≠ .misread s') ∧
      (((dispatch kps s).state.hist.accepted.drop s.hist.accepted.length).map
        fun e => Action.scheduled e.1 e.2).Perm (kps.map Kevent.due)) ↔
      ∀ kp ∈ kps, kp.ForAlive s := by
  rcases dispatch_cases kps s with ⟨front, back, es, rfl, hfront, hacc, hes, hend⟩
  rw [hacc, List.drop_left, hes]
  rcases hend with ⟨rfl, hend⟩ | ⟨kp, hin, hkp⟩
  · rw [hend, List.append_nil]
    refine ⟨fun _ => hfront, fun _ => ⟨fun s' h => ?_, .refl _⟩⟩
    cases h
  · constructor
    · intro h
      have hlen := h.2.length_eq
      have hpos := List.length_pos_of_mem hin
      simp only [List.length_map, List.length_append] at hlen
      omega
    · exact fun h => absurd (h kp (List.mem_append_right _ hin)) hkp

-- With live coroutines alone, every one of them is scheduled.
theorem dispatch_schedules {kps : List Kevent} (halive : ∀ kp ∈ kps, kp.ForAlive s) :
    ∃ es, dispatch kps s = .ended (.returned (s.push es)) ∧
      ∀ kp ∈ kps, ∀ c, kp.udata = .coro c → (c, waiterArg kp) ∈ es := by
  rcases dispatch_cases kps s with ⟨front, back, es, rfl, -, -, hes, ⟨rfl, hend⟩ | ⟨kp, hin, hnot⟩⟩
  · refine ⟨es, hend, fun kp hkp c hc => ?_⟩
    rw [List.append_nil] at hkp
    have hdue : Action.scheduled c (waiterArg kp) ∈ es.map fun e => Action.scheduled e.1 e.2 := by
      rw [hes]
      refine List.mem_map.mpr ⟨kp, hkp, ?_⟩
      unfold Kevent.due
      rw [hc]
    rcases List.mem_map.mp hdue with ⟨⟨co, arg⟩, hmem, heq⟩
    obtain ⟨rfl, rfl⟩ := Action.scheduled.inj heq
    exact hmem
  · exact absurd (halive kp (List.mem_append_right _ hin)) hnot

-- So a poll schedules every coroutine that an event is for, if all of them are alive.
theorem poll_schedules {p : KqueuePoller} {k : Knotes} {timeoutUsec : Int} {ns : List Notice}
    {r : Polled} (h : p.poll k s timeoutUsec (.events ns) = some r)
    (halive : ∀ n ∈ ns, ∃ c, k.apply p.changeList (n.ident, n.filter) = some (.coro c) ∧
      (s.coros c).dead = false) :
    ∃ es, r.ending = .ended (.returned (s.push es)) ∧ ∀ n ∈ ns, ∀ c,
      k.apply p.changeList (n.ident, n.filter) = some (.coro c) →
        (c, waiterArg ⟨n.ident, n.filter, n.flags, n.fflags, n.data, .coro c⟩) ∈ es := by
  simp only [poll] at h
  split at h
  · cases h
  · rcases Option.map_eq_some_iff.mp h with ⟨⟨events, k'⟩, hdel, rfl⟩
    have hstored := (Knotes.deliver_stored hdel).1
    have hlen := hstored.length_eq
    have hall : ∀ kp ∈ events, kp.ForAlive s := by
      intro kp hkp
      rcases List.mem_iff_get.mp hkp with ⟨⟨i, hi⟩, rfl⟩
      have hst := hstored.get (hlen ▸ hi) hi
      rcases halive _ (List.get_mem ns ⟨i, hlen ▸ hi⟩) with ⟨c, hc, hd⟩
      exact ⟨c, Option.some.inj (hst.udata.symm.trans hc), hd⟩
    rcases dispatch_schedules hall with ⟨es, hend, hin⟩
    refine ⟨es, hend, fun n hn c hc => ?_⟩
    rcases List.mem_iff_get.mp hn with ⟨⟨i, hi⟩, rfl⟩
    have hst := hstored.get hi (hlen ▸ hi)
    have hentry := hin _ (List.get_mem events ⟨i, hlen ▸ hi⟩) c
      (Option.some.inj (hst.udata.symm.trans hc))
    unfold waiterArg at hentry ⊢
    rw [hst.flags, hst.fflags] at hentry
    exact hentry

end KqueuePoller

/-! ## Runs -/

namespace KqueueWorld

variable {w w' : KqueueWorld} {op : KqueueOp}

/-- What is registered, or will be, suits its filter. -/
structure Sorted (w : KqueueWorld) : Prop where
  kernel : w.kernel.Sorted
  changes : ∀ ke ∈ w.poller.changeList, ke.udata.Suits ke.filter

theorem Sorted.change (h : w.Sorted) (ke : Kevent) (hke : ke.udata.Suits ke.filter) :
    (w.register (w.poller.change ke)).Sorted := by
  unfold KqueuePoller.change
  split
  · refine ⟨h.kernel, fun ke' hke' => ?_⟩
    rcases List.mem_append.mp hke' with hin | hin
    · exact h.changes ke' hin
    · rw [List.mem_singleton.mp hin]
      exact hke
  · exact ⟨h.kernel, h.changes⟩

theorem Sorted.poll (h : w.Sorted) {timeoutUsec : Int} {a : KeventAnswer}
    {r : KqueuePoller.Polled} (hpoll : w.poller.poll w.kernel w.sched timeoutUsec a = some r) :
    (afterPoll r).Sorted := by
  cases a with
  | events ns =>
    simp only [KqueuePoller.poll] at hpoll
    split at hpoll
    · cases hpoll
    · rcases Option.map_eq_some_iff.mp hpoll with ⟨⟨events, k⟩, hdel, rfl⟩
      have hsub := (Knotes.deliver_stored hdel).2
      have hsorted := h.kernel.apply h.changes
      exact ⟨fun key u hu => hsorted key u (hsub key u hu), fun _ hke => absurd hke List.not_mem_nil⟩
  | failed applied =>
    obtain rfl := Option.some.inj hpoll
    refine ⟨?_, fun _ hke => absurd hke List.not_mem_nil⟩
    exact h.kernel.apply fun ke hke => h.changes ke (List.mem_of_mem_take hke)

-- A step is taken in a defined state.
theorem step_defined (h : w.step op = some w') : w.defined = true := by
  unfold step at h
  split at h
  · assumption
  · cases h

theorem Sorted.step (h : w.Sorted) (hstep : w.step op = some w') : w'.Sorted := by
  have hdef := step_defined hstep
  simp only [KqueueWorld.step, if_pos hdef] at hstep
  cases op with
  | setWaitForRead fd c =>
    obtain rfl := Option.some.inj hstep
    exact h.change ⟨fd, .read, _, 0, 0, .coro c⟩ (by simp [Udata.Suits])
  | setWaitForWrite fd c =>
    obtain rfl := Option.some.inj hstep
    exact h.change ⟨fd, .write, _, 0, 0, .coro c⟩ (by simp [Udata.Suits])
  | setSignalHandler signum f =>
    obtain rfl := Option.some.inj hstep
    exact h.change ⟨signum, .signal, _, 0, 0, .handler f⟩ rfl
  | poll timeoutUsec a =>
    rcases Option.map_eq_some_iff.mp hstep with ⟨r, hpoll, rfl⟩
    exact h.poll hpoll
  | others s =>
    obtain rfl := Option.some.inj hstep
    exact ⟨h.kernel, h.changes⟩

theorem runs_sorted {outputMax : Nat} {ops : List KqueueOp} (run : Runs outputMax ops w) :
    w.Sorted := by
  apply run.invariant fun _ _ _ h hstep => Sorted.step h hstep
  constructor
  · intro key u hu
    cases hu
  · exact fun _ hke => absurd hke List.not_mem_nil

-- A registration is written inside the array or leaves the state undefined.
theorem delivers_change (hdef : w.defined = true) (ke : Kevent) :
    (w.register (w.poller.change ke)).defined = true ↔ w.poller.changeIndex < w.poller.outputMax := by
  unfold KqueuePoller.change
  split
  · rename_i hlt
    exact iff_of_true hdef hlt
  · rename_i hlt
    exact iff_of_false (by simp [register]) hlt

-- An event is for a live coroutine if and only if it is no signal and its coroutine is alive.
theorem forAlive_iff {k : Knotes} (hk : k.Sorted) {n : Notice} {kp : Kevent} (h : k.Stored n kp)
    (s : Sched) : kp.ForAlive s ↔
      n.filter ≠ .signal ∧ ∀ c, k (n.ident, n.filter) = some (.coro c) → (s.coros c).dead = false := by
  have hsuits := hk _ _ h.udata
  rw [h.udata]
  cases hu : kp.udata with
  | coro c =>
    rw [hu] at hsuits
    constructor
    · rintro ⟨c', hc', halive⟩
      rw [hu] at hc'
      refine ⟨hsuits, fun c'' hc'' => ?_⟩
      rw [← Udata.coro.inj (Option.some.inj hc''), Udata.coro.inj hc']
      exact halive
    · exact fun hall => ⟨c, hu, hall.2 c rfl⟩
  | handler f =>
    rw [hu] at hsuits
    constructor
    · rintro ⟨c', hc', -⟩
      rw [hu] at hc'
      cases hc'
    · exact fun hall => absurd hsuits hall.1

theorem forall_forAlive_iff {k : Knotes} (hk : k.Sorted) {ns : List Notice} {kps : List Kevent}
    (h : List.Forall₂ k.Stored ns kps) (s : Sched) :
    (∀ kp ∈ kps, kp.ForAlive s) ↔ ∀ n ∈ ns, n.filter ≠ .signal ∧
      ∀ c, k (n.ident, n.filter) = some (.coro c) → (s.coros c).dead = false := by
  induction h with
  | nil => simp
  | cons hst _ ih => rw [List.forall_mem_cons, List.forall_mem_cons, forAlive_iff hk hst, ih]

theorem Sorted.delivers (h : w.Sorted) (hstep : w.step op = some w') :
    w.Delivers op w' ↔ w.Deliverable op := by
  have hdef := step_defined hstep
  simp only [KqueueWorld.step, if_pos hdef] at hstep
  unfold Delivers Deliverable
  cases op with
  | setWaitForRead fd c =>
    obtain rfl := Option.some.inj hstep
    rw [and_true]
    exact delivers_change hdef _
  | setWaitForWrite fd c =>
    obtain rfl := Option.some.inj hstep
    rw [and_true]
    exact delivers_change hdef _
  | setSignalHandler signum f =>
    obtain rfl := Option.some.inj hstep
    rw [and_true]
    exact delivers_change hdef _
  | others s =>
    obtain rfl := Option.some.inj hstep
    exact iff_of_true ⟨hdef, trivial⟩ trivial
  | poll timeoutUsec a =>
    rcases Option.map_eq_some_iff.mp hstep with ⟨r, hpoll, rfl⟩
    cases a with
    | failed applied =>
      obtain rfl := Option.some.inj hpoll
      exact iff_of_true ⟨rfl, trivial⟩ trivial
    | events ns =>
      simp only [KqueuePoller.poll] at hpoll
      split at hpoll
      · cases hpoll
      · rcases Option.map_eq_some_iff.mp hpoll with ⟨⟨events, k⟩, hdel, rfl⟩
        change w.registered.deliver ns = some (events, k) at hdel
        have hsorted : w.registered.Sorted := h.kernel.apply h.changes
        have hstored := (Knotes.deliver_stored hdel).1
        dsimp only
        rw [hdel]
        rw [← forall_forAlive_iff hsorted hstored, ← KqueuePoller.dispatch_complete]
        apply and_congr
        · unfold afterPoll
          dsimp only
          cases KqueuePoller.dispatch events w.sched <;> simp
        · constructor
          · exact fun hperm => hperm events k rfl
          · intro hperm events' k' heq
            obtain rfl := (Prod.mk.inj (Option.some.inj heq)).1
            exact hperm

/-- In every history, every poll does for every event what its registration asks for if and only if
    no registration finds the change list full and no poll is answered with a signal or with an
    event of a dead coroutine. -/
theorem delivers_iff (outputMax : Nat) (ops : List KqueueOp) :
    (∀ pre op w w', pre ++ [op] <+: ops → Runs outputMax pre w → w.step op = some w' →
        w.Delivers op w') ↔
      ∀ pre op w w', pre ++ [op] <+: ops → Runs outputMax pre w → w.step op = some w' →
        w.Deliverable op := by
  constructor
  · intro hall pre op w w' hpre run hstep
    exact ((runs_sorted run).delivers hstep).mp (hall pre op w w' hpre run hstep)
  · intro hall pre op w w' hpre run hstep
    exact ((runs_sorted run).delivers hstep).mpr (hall pre op w w' hpre run hstep)

/-- A handler for SIGINT and a coroutine waiting on descriptor 5, and then the signal arrives. -/
def interrupted : List KqueueOp := [.setSignalHandler 2 100, .setWaitForRead 5 1]

theorem signal_misread :
    ∃ w w', Runs 2500 interrupted w ∧
      w.step (.poll 0 (.events [⟨2, .signal, 0, 0, 1⟩])) = some w' ∧ w'.defined = false ∧
      ¬w.Delivers (.poll 0 (.events [⟨2, .signal, 0, 0, 1⟩])) w' := by
  refine ⟨_, _, run_of_exec rfl, rfl, rfl, fun h => ?_⟩
  cases h.1

end KqueueWorld

end Coropp
