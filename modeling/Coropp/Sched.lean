import Coropp.Event
import Mathlib.Logic.Function.Basic

/-!
# `class coro`: the run queue

The static members of `coro`, the fields of a coroutine object that the scheduler reads, and its
operations.  The copying of stacks is left to `Coropp.StackCopy`: here `resume` and `yield` stop
where they call `__swap`, and control passes to the other side.

A coroutine object is named by its id.  Constructing one changes nothing but `_id_counter`, so
every id stands for an object that is as its constructor left it until something uses it.
-/

namespace Coropp

/-- `pending_entry`. -/
abbrev PendingEntry := CoroId × Arg

/-- The pending entry an expired event turns into. -/
def Event.entry (e : Event) : PendingEntry := (e.coro, e.args)

/-- The fields of a `coro` object that the scheduler uses. -/
structure Coro where
  value : Arg := 0
  started : Bool := false
  dead : Bool := false
deriving DecidableEq, Repr

/-- One resume that reached its coroutine: the arguments of the call and, when the coroutine was
    suspended in `yield`, what that `yield` returned. -/
structure Resumed where
  entry : PendingEntry
  yielded : Option Arg
deriving DecidableEq, Repr

/-- History variables, read by no operation: the `schedule` calls accepted so far, the resumes
    made so far, and the zombies of the `Dead_Coro` exceptions raised so far. -/
structure History where
  accepted : List PendingEntry := []
  resumed : List Resumed := []
  raised : List CoroId := []
deriving DecidableEq, Repr

/-- The static members of `coro`, and its objects. -/
structure Sched where
  exit : Bool := false
  events : List Event := []
  pending : List PendingEntry := []
  staging : List PendingEntry := []
  current : Option CoroId := none
  coros : CoroId → Coro := fun _ => {}
  hist : History := {}

/-- How an operation ends: it returns, or it throws `Dead_Coro`.  Either way it leaves a state. -/
inductive Outcome (σ : Type) where
  | returned (s : σ)
  | deadCoro (zombie : CoroId) (s : σ)

namespace Outcome

variable {σ τ : Type}

/-- The state an operation leaves behind. -/
def state : Outcome σ → σ
  | returned s => s
  | deadCoro _ s => s

/-- Whether the operation returned. -/
def isReturned : Outcome σ → Bool
  | returned _ => true
  | deadCoro _ _ => false

/-- Run the rest of the caller after an operation; an exception skips it. -/
def bind (o : Outcome σ) (f : σ → Outcome σ) : Outcome σ :=
  match o with
  | returned s => f s
  | deadCoro z s => deadCoro z s

/-- Change what is left behind. -/
def map (f : σ → τ) : Outcome σ → Outcome τ
  | returned s => returned (f s)
  | deadCoro z s => deadCoro z (f s)

@[simp] theorem state_returned (s : σ) : (returned s).state = s := rfl
@[simp] theorem state_deadCoro (z : CoroId) (s : σ) : (deadCoro z s).state = s := rfl
@[simp] theorem isReturned_returned (s : σ) : (returned s).isReturned = true := rfl
@[simp] theorem isReturned_deadCoro (z : CoroId) (s : σ) : (deadCoro z s).isReturned = false := rfl
@[simp] theorem bind_returned (s : σ) (f : σ → Outcome σ) : (returned s).bind f = f s := rfl
@[simp] theorem bind_deadCoro (z : CoroId) (s : σ) (f : σ → Outcome σ) :
    (deadCoro z s).bind f = deadCoro z s := rfl
@[simp] theorem map_returned (f : σ → τ) (s : σ) : (returned s).map f = returned (f s) := rfl
theorem map_map {υ : Type} (f : σ → τ) (g : τ → υ) (o : Outcome σ) :
    (o.map f).map g = o.map fun s => g (f s) := by
  cases o <;> rfl
theorem map_id (o : Outcome σ) : (o.map fun s => s) = o := by
  cases o <;> rfl
@[simp] theorem state_map (f : σ → τ) (o : Outcome σ) : (o.map f).state = f o.state := by
  cases o <;> rfl
@[simp] theorem isReturned_map (f : σ → τ) (o : Outcome σ) :
    (o.map f).isReturned = o.isReturned := by
  cases o <;> rfl

end Outcome

namespace Sched

/-- Change one coroutine object. -/
def setCoro (s : Sched) (co : CoroId) (f : Coro → Coro) : Sched :=
  { s with coros := Function.update s.coros co (f (s.coros co)) }

/-- `_pending->push_back`, for a list of entries. -/
def push (s : Sched) (entries : List PendingEntry) : Sched :=
  { s with
    pending := s.pending ++ entries
    hist := { s.hist with accepted := s.hist.accepted ++ entries } }

/-- `throw Dead_Coro (co)`. -/
def raise (s : Sched) (co : CoroId) : Outcome Sched :=
  .deadCoro co { s with hist := { s.hist with raised := s.hist.raised ++ [co] } }

/-- `co->schedule (arg)`. -/
def schedule (s : Sched) (co : CoroId) (arg : Arg) : Outcome Sched :=
  if (s.coros co).dead then s.raise co else .returned (s.push [(co, arg)])

/-- `_events->pop ()` when `e` is on top. -/
def popEvent (s : Sched) (e : Event) : Sched := { s with events := s.events.erase e }

/-- The loop of `schedule_events`, for at most `n` events. -/
def scheduleEventsLoop (rule : TopRule) (tv : Timeval) : Nat → Sched → Outcome Sched
  | 0, s => .returned s
  | n + 1, s =>
    if h : s.events = [] then .returned s
    else
      let e := rule.top s.events h
      if timercmpLt e.t tv then
        ((s.popEvent e).schedule e.coro e.args).bind (scheduleEventsLoop rule tv n)
      else .returned s

/-- `coro::schedule_events ()` at the clock reading `tv`.  Every turn of its loop pops an event,
    so there are no more turns than events. -/
def scheduleEvents (rule : TopRule) (tv : Timeval) (s : Sched) : Outcome Sched :=
  scheduleEventsLoop rule tv s.events.length s

/-- `coro::insert_event (t, co, args)`. -/
def insertEvent (s : Sched) (t : Timeval) (co : CoroId) (args : Arg) : Sched :=
  { s with events := ⟨t, args, co⟩ :: s.events }

/-- What `yield` returns when control comes back to it: `_current->_value`. -/
def yieldResult (s : Sched) : Arg :=
  match s.current with
  | some co => (s.coros co).value
  | none => 0

/-- `co->resume (arg)` of a live coroutine up to its `__swap`, and the other side of that swap: a
    coroutine that was suspended goes on in `yield`, a new one starts its function. -/
def switchTo (s : Sched) (co : CoroId) (arg : Arg) : Sched :=
  -- create (), _current = this and _value = arg
  let s' := { s.setCoro co fun c => { c with started := true, value := arg } with
    current := some co }
  let yielded := if (s.coros co).started then some s'.yieldResult else none
  { s' with hist := { s.hist with resumed := s.hist.resumed ++ [⟨(co, arg), yielded⟩] } }

def resume (s : Sched) (co : CoroId) (arg : Arg) : Outcome Sched :=
  if (s.coros co).dead then s.raise co else .returned (s.switchTo co arg)

/-- `co->yield (arg)` up to its `__swap` to the main context. -/
def yield (s : Sched) (co : CoroId) (arg : Arg) : Sched :=
  s.setCoro co fun c => { c with value := arg }

/-- The end of a coroutine's function: `_wrap1` marks it dead and `_wrap0` calls `yield (0)`. -/
def finish (s : Sched) (co : CoroId) : Sched :=
  let s := s.setCoro co fun c => { c with dead := true }
  match s.current with
  | some cur => s.yield cur 0
  | none => s

/-- `std::swap (_staging, _pending)`. -/
def swapLists (s : Sched) : Sched := { s with staging := s.pending, pending := s.staging }

/-! ## What each operation does -/

-- A change of an object changes nothing that it keeps in that object.
theorem setCoro_keeps {β : Type} (g : Coro → β) {s : Sched} {co : CoroId} (f : Coro → Coro)
    (hf : g (f (s.coros co)) = g (s.coros co)) (c : CoroId) :
    g ((s.setCoro co f).coros c) = g (s.coros c) := by
  unfold setCoro
  by_cases hc : c = co
  · subst hc
    dsimp only
    rw [Function.update_self, hf]
  · dsimp only
    rw [Function.update_of_ne hc]

theorem yield_dead (s : Sched) (co : CoroId) (arg : Arg) (c : CoroId) :
    ((s.yield co arg).coros c).dead = (s.coros c).dead :=
  setCoro_keeps Coro.dead _ rfl c

theorem yield_started (s : Sched) (co : CoroId) (arg : Arg) (c : CoroId) :
    ((s.yield co arg).coros c).started = (s.coros c).started :=
  setCoro_keeps Coro.started _ rfl c

theorem finish_dead (s : Sched) (co c : CoroId) :
    ((s.finish co).coros c).dead = if c = co then true else (s.coros c).dead := by
  have hset : ((s.setCoro co fun o => { o with dead := true }).coros c).dead =
      if c = co then true else (s.coros c).dead := by
    unfold setCoro
    dsimp only
    by_cases hc : c = co
    · rw [if_pos hc, hc, Function.update_self]
    · rw [if_neg hc, Function.update_of_ne hc]
  unfold finish
  dsimp only
  split
  · exact (yield_dead _ _ _ c).trans hset
  · exact hset

theorem switchTo_dead (s : Sched) (co : CoroId) (arg : Arg) (c : CoroId) :
    ((s.switchTo co arg).coros c).dead = (s.coros c).dead :=
  setCoro_keeps Coro.dead (fun c => { c with started := true, value := arg }) rfl c

theorem schedule_alive {s : Sched} {co : CoroId} (h : (s.coros co).dead = false) (arg : Arg) :
    s.schedule co arg = .returned (s.push [(co, arg)]) := by
  simp [schedule, h]

theorem schedule_dead {s : Sched} {co : CoroId} (h : (s.coros co).dead = true) (arg : Arg) :
    s.schedule co arg = s.raise co := by
  simp [schedule, h]

theorem resume_alive {s : Sched} {co : CoroId} (h : (s.coros co).dead = false) (arg : Arg) :
    s.resume co arg = .returned (s.switchTo co arg) := by
  simp [resume, h]

theorem resume_dead {s : Sched} {co : CoroId} (h : (s.coros co).dead = true) (arg : Arg) :
    s.resume co arg = s.raise co := by
  simp [resume, h]

-- The value a suspended yield returns is the one this resume has just stored.
theorem switchTo_resumed (s : Sched) (co : CoroId) (arg : Arg) :
    (s.switchTo co arg).hist.resumed =
      s.hist.resumed ++ [⟨(co, arg), if (s.coros co).started then some arg else none⟩] := by
  simp [switchTo, yieldResult, setCoro]

@[simp] theorem push_nil (s : Sched) : s.push [] = s := by
  simp [push]

theorem push_push (s : Sched) (es fs : List PendingEntry) :
    (s.push es).push fs = s.push (es ++ fs) := by
  simp [push, List.append_assoc]

-- A pass over the timers that returns moves some of the events, in order, to the end of
-- `_pending`, and changes nothing else.
theorem scheduleEventsLoop_returned {rule : TopRule} {tv : Timeval} {n : Nat} {s s' : Sched}
    (h : scheduleEventsLoop rule tv n s = .returned s') :
    ∃ fired left, (fired ++ left).Perm s.events ∧
      s' = { s.push (fired.map Event.entry) with events := left } := by
  induction n generalizing s with
  | zero =>
    obtain rfl : s = s' := by simpa [scheduleEventsLoop] using h
    exact ⟨[], s.events, .refl _, by simp⟩
  | succ n ih =>
    rw [scheduleEventsLoop] at h
    split at h
    · obtain rfl : s = s' := by simpa using h
      exact ⟨[], s.events, .refl _, by simp⟩
    · rename_i hne
      have hmem := rule.top_mem s.events hne
      generalize rule.top s.events hne = e at h hmem
      dsimp only at h
      split at h
      · by_cases hdead : ((s.popEvent e).coros e.coro).dead = true
        · rw [schedule_dead hdead] at h
          simp [raise] at h
        · rw [schedule_alive (by simpa using hdead), Outcome.bind_returned] at h
          rcases ih h with ⟨fired, left, hperm, rfl⟩
          refine ⟨e :: fired, left, ?_, by simp [push, popEvent, Event.entry]⟩
          exact (hperm.cons e).trans (List.perm_cons_erase hmem).symm
      · obtain rfl : s = s' := by simpa using h
        exact ⟨[], s.events, .refl _, by simp⟩

theorem scheduleEvents_returned {rule : TopRule} {tv : Timeval} {s s' : Sched}
    (h : scheduleEvents rule tv s = .returned s') :
    ∃ fired left, (fired ++ left).Perm s.events ∧
      s' = { s.push (fired.map Event.entry) with events := left } :=
  scheduleEventsLoop_returned h

-- A pass over the timers that throws has met a dead coroutine.
theorem scheduleEventsLoop_threw {rule : TopRule} {tv : Timeval} {n : Nat} {s s' : Sched}
    {z : CoroId} (h : scheduleEventsLoop rule tv n s = .deadCoro z s') :
    z ∈ s'.hist.raised := by
  induction n generalizing s with
  | zero => simp [scheduleEventsLoop] at h
  | succ n ih =>
    rw [scheduleEventsLoop] at h
    split at h
    · simp at h
    · rename_i hne
      generalize rule.top s.events hne = e at h
      dsimp only at h
      split at h
      · by_cases hdead : ((s.popEvent e).coros e.coro).dead = true
        · rw [schedule_dead hdead] at h
          simp only [raise, Outcome.bind_deadCoro, Outcome.deadCoro.injEq] at h
          rcases h with ⟨rfl, rfl⟩
          simp
        · rw [schedule_alive (by simpa using hdead), Outcome.bind_returned] at h
          exact ih h
      · simp at h

theorem scheduleEvents_threw {rule : TopRule} {tv : Timeval} {s s' : Sched} {z : CoroId}
    (h : scheduleEvents rule tv s = .deadCoro z s') : z ∈ s'.hist.raised :=
  scheduleEventsLoop_threw h

-- Timers of live coroutines never make `schedule_events` throw.
theorem scheduleEventsLoop_alive {rule : TopRule} {tv : Timeval} {n : Nat} {s : Sched}
    (halive : ∀ e ∈ s.events, (s.coros e.coro).dead = false) :
    ∃ s', scheduleEventsLoop rule tv n s = .returned s' := by
  induction n generalizing s with
  | zero => exact ⟨s, rfl⟩
  | succ n ih =>
    rw [scheduleEventsLoop]
    split
    · exact ⟨s, rfl⟩
    · rename_i hne
      dsimp only
      split
      · have htop : ((s.popEvent (rule.top s.events hne)).coros
            (rule.top s.events hne).coro).dead = false :=
          halive _ (rule.top_mem s.events hne)
        rw [schedule_alive htop, Outcome.bind_returned]
        apply ih
        intro e he
        exact halive e (List.mem_of_mem_erase he)
      · exact ⟨s, rfl⟩

theorem scheduleEvents_alive (rule : TopRule) (tv : Timeval) {s : Sched}
    (halive : ∀ e ∈ s.events, (s.coros e.coro).dead = false) :
    ∃ s', scheduleEvents rule tv s = .returned s' :=
  scheduleEventsLoop_alive halive

/-! ## Exceptions only accumulate -/

theorem schedule_raised (s : Sched) (co : CoroId) (arg : Arg) :
    s.hist.raised <+: (s.schedule co arg).state.hist.raised := by
  unfold schedule
  split
  · exact List.prefix_append _ _
  · exact List.prefix_rfl

theorem resume_raised (s : Sched) (co : CoroId) (arg : Arg) :
    s.hist.raised <+: (s.resume co arg).state.hist.raised := by
  unfold resume
  split
  · exact List.prefix_append _ _
  · exact List.prefix_rfl

theorem scheduleEventsLoop_raised (rule : TopRule) (tv : Timeval) (n : Nat) (s : Sched) :
    s.hist.raised <+: (scheduleEventsLoop rule tv n s).state.hist.raised := by
  induction n generalizing s with
  | zero => exact List.prefix_rfl
  | succ n ih =>
    rw [scheduleEventsLoop]
    split
    · exact List.prefix_rfl
    · rename_i hne
      generalize rule.top s.events hne = e
      dsimp only
      split
      · have hsch := schedule_raised (s.popEvent e) e.coro e.args
        cases ho : (s.popEvent e).schedule e.coro e.args with
        | returned s' =>
          rw [ho] at hsch
          exact hsch.trans (ih s')
        | deadCoro z s' =>
          rw [ho] at hsch
          exact hsch
      · exact List.prefix_rfl

theorem scheduleEvents_raised (rule : TopRule) (tv : Timeval) (s : Sched) :
    s.hist.raised <+: (s.scheduleEvents rule tv).state.hist.raised :=
  scheduleEventsLoop_raised rule tv _ s

/-! ## A pass over the timers leaves what is pending -/

theorem scheduleEventsLoop_pending (rule : TopRule) (tv : Timeval) (n : Nat) (s : Sched) :
    s.pending <+: (scheduleEventsLoop rule tv n s).state.pending := by
  induction n generalizing s with
  | zero => exact List.prefix_rfl
  | succ n ih =>
    rw [scheduleEventsLoop]
    split
    · exact List.prefix_rfl
    · rename_i hne
      generalize rule.top s.events hne = e
      dsimp only
      split
      · by_cases hdead : ((s.popEvent e).coros e.coro).dead = true
        · rw [schedule_dead hdead]
          exact List.prefix_rfl
        · rw [schedule_alive (by simpa using hdead), Outcome.bind_returned]
          have hpush : s.pending <+: ((s.popEvent e).push [(e.coro, e.args)]).pending :=
            List.prefix_append _ _
          exact hpush.trans (ih _)
      · exact List.prefix_rfl

theorem scheduleEvents_pending (rule : TopRule) (tv : Timeval) (s : Sched) :
    s.pending <+: (s.scheduleEvents rule tv).state.pending :=
  scheduleEventsLoop_pending rule tv _ s

end Sched

end Coropp
