import Coropp.Sched
import Coropp.Lib.Transition

/-!
# `event_loop` and `run_pending`

The scheduler as a step machine.  `run_pending` gives control to code the library does not know,
so its loops are cut where control leaves them: a step is a stretch of `event_loop`, or one thing
that a coroutine, the poller or the main program does while it has control.

The main result is that scheduling is one global queue: resumes happen in the order of the
`schedule` calls, entry for entry, and `yield` returns what was passed to that call.
-/

namespace Coropp

/-- Where control is. -/
inductive Pc where
  /-- The main program, not inside `event_loop`. -/
  | outside
  /-- `run_pending`, at the test of its `while` loop. -/
  | runPending
  /-- `run_pending`, at the test of its `for` loop, with `i` entries of `_staging` behind it. -/
  | staging (i : Nat)
  /-- The coroutine that entry `i` of `_staging` resumed. -/
  | inside (i : Nat)
  /-- `event_loop`, inside `_poller->poll`. -/
  | polling
deriving DecidableEq, Repr

-- Whether run_pending is iterating over _staging.
def Pc.inRound : Pc → Bool
  | .staging _ | .inside _ => true
  | .outside | .runPending | .polling => false

structure Machine where
  sched : Sched := {}
  pc : Pc := .outside

/-- The calls into the scheduler that a coroutine, the poller and the main program may make. -/
inductive Call where
  | schedule (co : CoroId) (arg : Arg)
  | insertEvent (t : Timeval) (co : CoroId) (args : Arg)
  | exit
deriving DecidableEq, Repr

/-- The steps.  Those that read the clock carry the reading, and how `_events->top` breaks ties. -/
inductive Act where
  /-- The main program calls `event_loop`. -/
  | enter (rule : TopRule) (tv : Timeval)
  /-- `while (_pending->size() > 0)`. -/
  | test
  /-- `i != _staging->end()`: resume the next entry, or end the round. -/
  | next (rule : TopRule) (tv : Timeval)
  /-- Whoever has control calls into the scheduler. -/
  | call (c : Call)
  /-- The running coroutine calls `co->yield (arg)`. -/
  | yield (co : CoroId) (arg : Arg)
  /-- The function of the running coroutine ends. -/
  | finish
  /-- The poller returns. -/
  | pollReturn (rule : TopRule) (tv : Timeval)
  /-- The poller throws an exception of its own. -/
  | pollThrow

namespace Machine

/-- Go on after an operation of the scheduler.  An exception it throws is not caught inside
    `event_loop`, so control is back in the main program. -/
def resolve (o : Outcome Sched) (pc : Pc) : Machine :=
  ⟨o.state, if o.isReturned then pc else .outside⟩

/-- `while (!_exit)` of `event_loop`, and the first `schedule_events` of `run_pending`. -/
def loopHead (rule : TopRule) (tv : Timeval) (s : Sched) : Machine :=
  if s.exit then ⟨s, .outside⟩ else resolve (s.scheduleEvents rule tv) .runPending

/-- The coroutine that has control. -/
def running (m : Machine) : Option CoroId :=
  match m.pc with
  | .inside i => (m.sched.staging[i]?).map (·.1)
  | _ => none

/-- Who may call into the scheduler: not `run_pending` itself. -/
def callerPc : Pc → Bool
  | .outside | .inside _ | .polling => true
  | .runPending | .staging _ => false

/-- A `Dead_Coro` thrown by `schedule` goes to the caller.  A poller lets it through to the main
    program; a coroutine or the main program may catch it. -/
def callSchedule (m : Machine) (co : CoroId) (arg : Arg) : Machine :=
  if m.pc = .polling then resolve (m.sched.schedule co arg) .polling
  else ⟨(m.sched.schedule co arg).state, m.pc⟩

def doCall (m : Machine) : Call → Machine
  | .schedule co arg => m.callSchedule co arg
  | .insertEvent t co args => ⟨m.sched.insertEvent t co args, m.pc⟩
  | .exit => ⟨{ m.sched with exit := true }, m.pc⟩

/-- The test of the `for` loop of `run_pending`, and what follows it. -/
def nextEntry (rule : TopRule) (tv : Timeval) (m : Machine) (i : Nat) : Machine :=
  match m.sched.staging[i]? with
  | some (co, arg) => resolve (m.sched.resume co arg) (.inside i)
  | none => resolve (({ m.sched with staging := [] } : Sched).scheduleEvents rule tv) .runPending

def step (m : Machine) : Act → Option Machine
  | .enter rule tv =>
    match m.pc with
    | .outside => some (loopHead rule tv m.sched)
    | _ => none
  | .test =>
    match m.pc with
    | .runPending =>
      if m.sched.pending.length > 0 then some ⟨m.sched.swapLists, .staging 0⟩
      else if m.sched.exit then some ⟨m.sched, .outside⟩
      else some ⟨m.sched, .polling⟩
    | _ => none
  | .next rule tv =>
    match m.pc with
    | .staging i => some (m.nextEntry rule tv i)
    | _ => none
  | .call c => if callerPc m.pc then some (m.doCall c) else none
  | .yield co arg =>
    match m.pc with
    | .inside i => some ⟨m.sched.yield co arg, .staging (i + 1)⟩
    | _ => none
  | .finish =>
    match m.pc, m.running with
    | .inside i, some co => some ⟨m.sched.finish co, .staging (i + 1)⟩
    | _, _ => none
  | .pollReturn rule tv =>
    match m.pc with
    | .polling => some (loopHead rule tv m.sched)
    | _ => none
  | .pollThrow =>
    match m.pc with
    | .polling => some ⟨m.sched, .outside⟩
    | _ => none

/-- Runs of the scheduler. -/
abbrev Runs (acts : List Act) (m : Machine) : Prop :=
  Transition.Run (Transition.ofFun step) ({} : Machine) acts m

/-- The part of `_staging` that the round in progress has not resumed yet. -/
def unprocessed (m : Machine) : List PendingEntry :=
  match m.pc with
  | .staging i => m.sched.staging.drop i
  | .inside i => m.sched.staging.drop (i + 1)
  | _ => []

/-- The entries whose turn will come. -/
def Queued (m : Machine) (entry : PendingEntry) : Prop :=
  entry ∈ m.unprocessed ∨ entry ∈ m.sched.pending

/-- The coroutine of the entry has been resumed with its value, and has control. -/
def Entered (m : Machine) (entry : PendingEntry) : Prop :=
  (∃ i, m.pc = .inside i) ∧ m.sched.current = some entry.1 ∧ m.sched.yieldResult = entry.2

theorem unprocessed_between {m : Machine} (h : m.pc.inRound = false) : m.unprocessed = [] := by
  unfold unprocessed
  cases hpc : m.pc <;> simp_all [Pc.inRound]

theorem unprocessed_staging {m : Machine} {i : Nat} (h : m.pc = .staging i) :
    m.unprocessed = m.sched.staging.drop i := by
  unfold unprocessed
  rw [h]

theorem unprocessed_inside {m : Machine} {i : Nat} (h : m.pc = .inside i) :
    m.unprocessed = m.sched.staging.drop (i + 1) := by
  unfold unprocessed
  rw [h]

theorem drop_of_some {l : List PendingEntry} {i : Nat} {entry : PendingEntry}
    (h : l[i]? = some entry) : l.drop i = entry :: l.drop (i + 1) := by
  rw [List.drop_eq_getElem?_toList_append, h]
  rfl

theorem drop_of_none {l : List PendingEntry} {i : Nat} (h : l[i]? = none) : l.drop i = [] :=
  List.drop_eq_nil_of_le (List.getElem?_eq_none_iff.mp h)

/-! ## What each step does -/

section Steps

variable {m m' : Machine}

theorem step_enter {rule : TopRule} {tv : Timeval} (h : m.step (.enter rule tv) = some m') :
    m.pc = .outside ∧ m' = loopHead rule tv m.sched := by
  rcases m with ⟨s, pc⟩
  cases pc <;> simp only [step, Option.some.injEq, reduceCtorEq] at h
  exact ⟨rfl, h.symm⟩

theorem step_test (h : m.step .test = some m') :
    m.pc = .runPending ∧
      (m' = ⟨m.sched.swapLists, .staging 0⟩ ∧ m.sched.pending.length > 0 ∨
        m' = ⟨m.sched, .outside⟩ ∧ m.sched.pending.length = 0 ∧ m.sched.exit = true ∨
        m' = ⟨m.sched, .polling⟩ ∧ m.sched.pending.length = 0 ∧ m.sched.exit = false) := by
  rcases m with ⟨s, pc⟩
  cases pc <;> simp only [step, reduceCtorEq] at h
  refine ⟨rfl, ?_⟩
  split at h
  next hlen => exact .inl ⟨(Option.some.inj h).symm, hlen⟩
  next hlen =>
    split at h
    next hexit => exact .inr (.inl ⟨(Option.some.inj h).symm, Nat.eq_zero_of_not_pos hlen, hexit⟩)
    next hexit =>
      exact .inr (.inr ⟨(Option.some.inj h).symm, Nat.eq_zero_of_not_pos hlen, by simpa using hexit⟩)

theorem step_next {rule : TopRule} {tv : Timeval} (h : m.step (.next rule tv) = some m') :
    ∃ i, m.pc = .staging i ∧ m' = m.nextEntry rule tv i := by
  rcases m with ⟨s, pc⟩
  cases pc <;> simp only [step, Option.some.injEq, reduceCtorEq] at h
  exact ⟨_, rfl, h.symm⟩

theorem step_call {c : Call} (h : m.step (.call c) = some m') :
    callerPc m.pc = true ∧ m' = m.doCall c := by
  simp only [step, Option.ite_none_right_eq_some, Option.some.injEq] at h
  exact ⟨h.1, h.2.symm⟩

theorem step_yield {co : CoroId} {arg : Arg} (h : m.step (.yield co arg) = some m') :
    ∃ i, m.pc = .inside i ∧ m' = ⟨m.sched.yield co arg, .staging (i + 1)⟩ := by
  rcases m with ⟨s, pc⟩
  cases pc <;> simp only [step, Option.some.injEq, reduceCtorEq] at h
  exact ⟨_, rfl, h.symm⟩

theorem step_finish (h : m.step .finish = some m') :
    ∃ i co, m.pc = .inside i ∧ m.running = some co ∧
      m' = ⟨m.sched.finish co, .staging (i + 1)⟩ := by
  simp only [step] at h
  split at h
  next i co hpc hrun => exact ⟨i, co, hpc, hrun, (Option.some.inj h).symm⟩
  next => cases h

theorem step_pollReturn {rule : TopRule} {tv : Timeval}
    (h : m.step (.pollReturn rule tv) = some m') :
    m.pc = .polling ∧ m' = loopHead rule tv m.sched := by
  rcases m with ⟨s, pc⟩
  cases pc <;> simp only [step, Option.some.injEq, reduceCtorEq] at h
  exact ⟨rfl, h.symm⟩

theorem step_pollThrow (h : m.step .pollThrow = some m') :
    m.pc = .polling ∧ m' = ⟨m.sched, .outside⟩ := by
  rcases m with ⟨s, pc⟩
  cases pc <;> simp only [step, Option.some.injEq, reduceCtorEq] at h
  exact ⟨rfl, h.symm⟩

end Steps

/-! ## Exceptions are recorded -/

-- An operation that throws names the zombie in the history.
def Recorded (o : Outcome Sched) : Prop := ∀ z s, o = .deadCoro z s → z ∈ s.hist.raised

theorem resume_recorded (s : Sched) (co : CoroId) (arg : Arg) :
    Recorded (s.resume co arg) := by
  intro z s' h
  by_cases hdead : (s.coros co).dead = true
  · rw [Sched.resume_dead hdead] at h
    simp only [Sched.raise, Outcome.deadCoro.injEq] at h
    rcases h with ⟨rfl, rfl⟩
    simp
  · rw [Sched.resume_alive (by simpa using hdead)] at h
    simp at h

theorem resolve_quiet {o : Outcome Sched} {pc : Pc} (ho : Recorded o)
    (hq : (resolve o pc).sched.hist.raised = []) :
    ∃ s, o = .returned s ∧ resolve o pc = ⟨s, pc⟩ := by
  cases o with
  | returned s => exact ⟨s, rfl, rfl⟩
  | deadCoro z s =>
    have hz := ho z s rfl
    rw [show s.hist.raised = [] from hq] at hz
    simp at hz

/-! ## The queue -/

-- The coroutines that have been resumed before the k-th resume.
def resumedBefore (log : List Resumed) (k : Nat) : List CoroId :=
  (log.take k).map (·.entry.1)

/-- The scheduler's queue invariant: what `schedule` has accepted is what has been resumed, then
    the rest of the round, then `_pending`; between rounds `_staging` is empty. -/
structure Fifo (m : Machine) : Prop where
  log : m.sched.hist.accepted =
    m.sched.hist.resumed.map Resumed.entry ++ m.unprocessed ++ m.sched.pending
  between : m.pc.inRound = false → m.sched.staging = []
  started : ∀ co, (m.sched.coros co).started = true ↔
    co ∈ m.sched.hist.resumed.map (·.entry.1)
  delivered : ∀ k r, m.sched.hist.resumed[k]? = some r →
    r.yielded = if r.entry.1 ∈ resumedBefore m.sched.hist.resumed k then some r.entry.2 else none

theorem Fifo.push {s : Sched} {pc : Pc} (h : Fifo ⟨s, pc⟩) (es : List PendingEntry) :
    Fifo ⟨s.push es, pc⟩ where
  log := by
    have hlog := h.log
    simp only [unprocessed, Sched.push] at hlog ⊢
    rw [hlog]
    simp only [List.append_assoc]
  between := h.between
  started := h.started
  delivered := h.delivered

theorem Fifo.scheduleEvents {rule : TopRule} {tv : Timeval} {s s' : Sched} {pc : Pc}
    (h : Fifo ⟨s, pc⟩) (hs : s.scheduleEvents rule tv = .returned s') : Fifo ⟨s', pc⟩ := by
  rcases Sched.scheduleEvents_returned hs with ⟨fired, left, -, rfl⟩
  exact ⟨(h.push (fired.map Event.entry)).log, h.between, h.started, h.delivered⟩

-- Control moves between the places of event_loop where no round is in progress.
theorem Fifo.move {s : Sched} {pc pc' : Pc} (h : Fifo ⟨s, pc⟩) (hpc : pc.inRound = false)
    (hpc' : pc'.inRound = false) : Fifo ⟨s, pc'⟩ where
  log := by
    have hlog := h.log
    rw [unprocessed_between (m := ⟨s, pc⟩) hpc] at hlog
    rw [unprocessed_between (m := ⟨s, pc'⟩) hpc']
    exact hlog
  between := fun _ => h.between hpc
  started := h.started
  delivered := h.delivered

theorem Fifo.loopHead {rule : TopRule} {tv : Timeval} {s : Sched} {pc : Pc} (h : Fifo ⟨s, pc⟩)
    (hpc : pc.inRound = false) (hq : (loopHead rule tv s).sched.hist.raised = []) :
    Fifo (loopHead rule tv s) := by
  unfold Machine.loopHead at hq ⊢
  split at hq
  · rename_i hexit
    rw [if_pos hexit]
    exact h.move hpc rfl
  · rename_i hexit
    rw [if_neg hexit]
    obtain ⟨s', hs, hres⟩ := resolve_quiet (fun z t => Sched.scheduleEvents_threw) hq
    rw [hres]
    have hnext : Fifo ⟨s, .runPending⟩ := h.move hpc rfl
    exact hnext.scheduleEvents hs

theorem Fifo.swapLists {s : Sched} (h : Fifo ⟨s, .runPending⟩) : Fifo ⟨s.swapLists, .staging 0⟩ where
  log := by
    have hlog := h.log
    have hempty : s.staging = [] := h.between rfl
    simp only [unprocessed, List.append_nil] at hlog
    simp only [unprocessed, Sched.swapLists, hempty, List.drop_zero, List.append_nil]
    exact hlog
  between := fun hr => by simp [Pc.inRound] at hr
  started := h.started
  delivered := h.delivered

theorem Fifo.switchTo {s : Sched} {i : Nat} {co : CoroId} {arg : Arg}
    (h : Fifo ⟨s, .staging i⟩) (hget : s.staging[i]? = some (co, arg)) :
    Fifo ⟨s.switchTo co arg, .inside i⟩ where
  log := by
    have hlog := h.log
    simp only [unprocessed, drop_of_some hget] at hlog
    simp only [unprocessed, Sched.switchTo_resumed, List.map_append, List.map_cons, List.map_nil]
    change s.hist.accepted = _ ++ s.staging.drop (i + 1) ++ s.pending
    rw [hlog]
    simp only [List.append_assoc, List.cons_append, List.nil_append]
  between := fun hr => by simp [Pc.inRound] at hr
  started := by
    intro c
    rw [Sched.switchTo_resumed, List.map_append, List.mem_append, ← h.started c]
    by_cases hc : c = co
    · subst hc
      simp [Sched.switchTo, Sched.setCoro]
    · simp [Sched.switchTo, Sched.setCoro, hc]
  delivered := by
    intro k r hr
    have hstarted := h.started co
    rw [Sched.switchTo_resumed] at hr ⊢
    by_cases hk : k < s.hist.resumed.length
    · rw [List.getElem?_append_left hk] at hr
      rw [resumedBefore, List.take_append_of_le_length (Nat.le_of_lt hk)]
      exact h.delivered k r hr
    · rcases List.getElem?_eq_some_iff.mp hr with ⟨hlen, hval⟩
      obtain rfl : k = s.hist.resumed.length := by
        simp only [List.length_append, List.length_singleton] at hlen
        omega
      obtain rfl := hval
      simp only [resumedBefore, List.take_left, List.getElem_append_right (Nat.le_refl _),
        Nat.sub_self, List.getElem_singleton, ← hstarted]

-- The end of a round: the iterator has reached the end, so clearing drops nothing.
theorem Fifo.clear {s : Sched} {i : Nat} (h : Fifo ⟨s, .staging i⟩)
    (hget : s.staging[i]? = none) : Fifo ⟨{ s with staging := [] }, .runPending⟩ where
  log := by
    have hlog := h.log
    simp only [unprocessed, drop_of_none hget] at hlog
    simpa only [unprocessed] using hlog
  between := fun _ => rfl
  started := h.started
  delivered := h.delivered

-- A coroutine gives control back; no object has become a new one.
theorem Fifo.back {s : Sched} {i : Nat} (h : Fifo ⟨s, .inside i⟩) {coros : CoroId → Coro}
    (hcoros : ∀ co, (coros co).started = (s.coros co).started) :
    Fifo ⟨{ s with coros := coros }, .staging (i + 1)⟩ where
  log := h.log
  between := fun hr => by simp [Pc.inRound] at hr
  started := by
    intro co
    rw [show ({ s with coros := coros } : Sched).coros co = coros co from rfl, hcoros co]
    exact h.started co
  delivered := h.delivered

theorem callSchedule_sched (m : Machine) (co : CoroId) (arg : Arg) :
    (m.callSchedule co arg).sched = (m.sched.schedule co arg).state := by
  unfold callSchedule resolve
  split <;> rfl

theorem callSchedule_alive {m : Machine} {co : CoroId} (arg : Arg)
    (h : (m.sched.coros co).dead = false) :
    m.callSchedule co arg = ⟨m.sched.push [(co, arg)], m.pc⟩ := by
  unfold callSchedule resolve
  rw [Sched.schedule_alive h]
  split
  · rename_i hpc
    simp [hpc]
  · rfl

theorem callSchedule_dead {m : Machine} {co : CoroId} (arg : Arg)
    (h : (m.sched.coros co).dead = true) :
    (m.callSchedule co arg).sched.hist.raised = m.sched.hist.raised ++ [co] := by
  unfold callSchedule resolve
  rw [Sched.schedule_dead h]
  split <;> rfl

theorem Fifo.doCall {m : Machine} {c : Call} (h : Fifo m)
    (hq : (m.doCall c).sched.hist.raised = []) : Fifo (m.doCall c) := by
  cases c with
  | schedule co arg =>
    change Fifo (m.callSchedule co arg)
    change (m.callSchedule co arg).sched.hist.raised = [] at hq
    by_cases hdead : (m.sched.coros co).dead = true
    · rw [callSchedule_dead arg hdead] at hq
      simp at hq
    · rw [callSchedule_alive arg (by simpa using hdead)]
      exact h.push [(co, arg)]
  | insertEvent t co args => exact ⟨h.log, h.between, h.started, h.delivered⟩
  | exit => exact ⟨h.log, h.between, h.started, h.delivered⟩

theorem nextEntry_some {rule : TopRule} {tv : Timeval} {m : Machine} {i : Nat} {co : CoroId}
    {arg : Arg} (h : m.sched.staging[i]? = some (co, arg)) :
    m.nextEntry rule tv i = resolve (m.sched.resume co arg) (.inside i) := by
  unfold nextEntry
  rw [h]

theorem nextEntry_none {rule : TopRule} {tv : Timeval} {m : Machine} {i : Nat}
    (h : m.sched.staging[i]? = none) :
    m.nextEntry rule tv i =
      resolve (({ m.sched with staging := [] } : Sched).scheduleEvents rule tv) .runPending := by
  unfold nextEntry
  rw [h]

theorem Fifo.nextEntry {rule : TopRule} {tv : Timeval} {s : Sched} {i : Nat}
    (h : Fifo ⟨s, .staging i⟩)
    (hq : (Machine.nextEntry rule tv ⟨s, .staging i⟩ i).sched.hist.raised = []) :
    Fifo (Machine.nextEntry rule tv ⟨s, .staging i⟩ i) := by
  cases hget : s.staging[i]? with
  | none =>
    rw [nextEntry_none hget] at hq ⊢
    obtain ⟨s', hs, hres⟩ := resolve_quiet (fun z t => Sched.scheduleEvents_threw) hq
    rw [hres]
    exact (h.clear hget).scheduleEvents hs
  | some entry =>
    rcases entry with ⟨co, arg⟩
    rw [nextEntry_some hget] at hq ⊢
    rcases resolve_quiet (resume_recorded s co arg) hq with ⟨s', hs, hres⟩
    by_cases hdead : (s.coros co).dead = true
    · rw [Sched.resume_dead hdead] at hs
      simp [Sched.raise] at hs
    · rw [Sched.resume_alive (by simpa using hdead)] at hs
      rw [hres, ← Outcome.returned.inj hs]
      exact h.switchTo hget

theorem finish_eq (s : Sched) (co : CoroId) :
    ∃ coros : CoroId → Coro, s.finish co = { s with coros := coros } ∧
      ∀ c, (coros c).started = (s.coros c).started := by
  have hdead : ∀ c, ((s.setCoro co fun c => { c with dead := true }).coros c).started =
      (s.coros c).started :=
    Sched.setCoro_keeps Coro.started _ rfl
  unfold Sched.finish
  dsimp only
  split
  · exact ⟨_, rfl, fun c => (Sched.yield_started _ _ _ c).trans (hdead c)⟩
  · exact ⟨_, rfl, hdead⟩

-- The step lemma: as long as nothing is raised, every step keeps the queue.
theorem Fifo.step {m m' : Machine} {a : Act} (h : Fifo m) (hstep : m.step a = some m')
    (hq : m'.sched.hist.raised = []) : Fifo m' := by
  rcases m with ⟨s, pc⟩
  cases a with
  | enter rule tv =>
    obtain ⟨rfl : pc = _, rfl⟩ := step_enter hstep
    exact h.loopHead rfl hq
  | test =>
    obtain ⟨rfl : pc = _, ⟨rfl, -⟩ | ⟨rfl, -⟩ | ⟨rfl, -⟩⟩ := step_test hstep
    · exact h.swapLists
    · exact h.move rfl rfl
    · exact h.move rfl rfl
  | next rule tv =>
    obtain ⟨i, rfl : pc = _, rfl⟩ := step_next hstep
    exact h.nextEntry hq
  | call c =>
    obtain ⟨-, rfl⟩ := step_call hstep
    exact h.doCall hq
  | yield co arg =>
    obtain ⟨i, rfl : pc = _, rfl⟩ := step_yield hstep
    exact h.back (s.yield_started co arg)
  | finish =>
    obtain ⟨i, co, rfl : pc = _, -, rfl⟩ := step_finish hstep
    rcases finish_eq s co with ⟨coros, hfin, hstarted⟩
    simp only [hfin]
    exact h.back hstarted
  | pollReturn rule tv =>
    obtain ⟨rfl : pc = _, rfl⟩ := step_pollReturn hstep
    exact h.loopHead rfl hq
  | pollThrow =>
    obtain ⟨rfl : pc = _, rfl⟩ := step_pollThrow hstep
    exact h.move rfl rfl

theorem loopHead_raised (rule : TopRule) (tv : Timeval) (s : Sched) :
    s.hist.raised <+: (loopHead rule tv s).sched.hist.raised := by
  unfold loopHead
  split
  · exact List.prefix_rfl
  · exact Sched.scheduleEvents_raised rule tv s

theorem doCall_raised (m : Machine) (c : Call) :
    m.sched.hist.raised <+: (m.doCall c).sched.hist.raised := by
  cases c with
  | schedule co arg =>
    change _ <+: (m.callSchedule co arg).sched.hist.raised
    unfold callSchedule
    split <;> exact Sched.schedule_raised m.sched co arg
  | insertEvent t co args => exact List.prefix_rfl
  | exit => exact List.prefix_rfl

theorem nextEntry_raised (rule : TopRule) (tv : Timeval) (m : Machine) (i : Nat) :
    m.sched.hist.raised <+: (m.nextEntry rule tv i).sched.hist.raised := by
  unfold nextEntry
  split
  · exact Sched.resume_raised m.sched _ _
  · exact Sched.scheduleEvents_raised rule tv { m.sched with staging := [] }

theorem step_raised {m m' : Machine} {a : Act} (hstep : m.step a = some m') :
    m.sched.hist.raised <+: m'.sched.hist.raised := by
  cases a with
  | enter rule tv =>
    rw [(step_enter hstep).2]
    exact loopHead_raised rule tv m.sched
  | test =>
    rcases step_test hstep with ⟨-, ⟨rfl, -⟩ | ⟨rfl, -⟩ | ⟨rfl, -⟩⟩ <;> exact List.prefix_rfl
  | next rule tv =>
    rcases step_next hstep with ⟨i, -, rfl⟩
    exact nextEntry_raised rule tv m i
  | call c =>
    rw [(step_call hstep).2]
    exact doCall_raised m c
  | yield co arg =>
    rcases step_yield hstep with ⟨i, -, rfl⟩
    exact List.prefix_rfl
  | finish =>
    rcases step_finish hstep with ⟨i, co, -, -, rfl⟩
    rcases finish_eq m.sched co with ⟨coros, hfin, -⟩
    simp only [hfin]
    exact List.prefix_rfl
  | pollReturn rule tv =>
    rw [(step_pollReturn hstep).2]
    exact loopHead_raised rule tv m.sched
  | pollThrow =>
    rcases step_pollThrow hstep with ⟨-, rfl⟩
    exact List.prefix_rfl

/-! ## What becomes of an entry -/

-- A pass over the timers, wherever control goes then, leaves what is pending in the queue.
theorem queued_scheduleEvents {rule : TopRule} {tv : Timeval} {s : Sched} {entry : PendingEntry}
    (hin : entry ∈ s.pending) (pc : Pc) : (resolve (s.scheduleEvents rule tv) pc).Queued entry :=
  .inr ((Sched.scheduleEvents_pending rule tv s).subset hin)

theorem queued_loopHead {rule : TopRule} {tv : Timeval} {s : Sched} {entry : PendingEntry}
    (hin : entry ∈ s.pending) : (loopHead rule tv s).Queued entry := by
  unfold loopHead
  split
  · exact .inr hin
  · exact queued_scheduleEvents hin _

theorem Queued.pending {m : Machine} {entry : PendingEntry} (hq : m.Queued entry)
    (hpc : m.pc.inRound = false) : entry ∈ m.sched.pending := by
  rcases hq with hround | hin
  · rw [unprocessed_between hpc] at hround
    exact absurd hround List.not_mem_nil
  · exact hin

-- The entry whose turn it is gives its coroutine control, or is that of a dead one.
theorem queued_next {rule : TopRule} {tv : Timeval} {s : Sched} {i : Nat} {entry : PendingEntry}
    (hq : Machine.Queued ⟨s, .staging i⟩ entry)
    (halive : ∀ co arg, s.staging[i]? = some (co, arg) → (s.coros co).dead = false) :
    (nextEntry rule tv ⟨s, .staging i⟩ i).Queued entry ∨
      (nextEntry rule tv ⟨s, .staging i⟩ i).Entered entry := by
  cases hget : s.staging[i]? with
  | none =>
    rw [nextEntry_none hget]
    rcases hq with hround | hin
    · rw [unprocessed_staging rfl, drop_of_none hget] at hround
      exact absurd hround List.not_mem_nil
    · exact .inl (queued_scheduleEvents (s := { s with staging := [] }) hin _)
  | some head =>
    rcases head with ⟨co, arg⟩
    rw [nextEntry_some hget, Sched.resume_alive (halive co arg hget)]
    rcases hq with hround | hin
    · rw [unprocessed_staging rfl, drop_of_some hget] at hround
      rcases List.mem_cons.mp hround with rfl | hrest
      · refine .inr ⟨⟨i, rfl⟩, rfl, ?_⟩
        simp [resolve, Sched.switchTo, Sched.yieldResult, Sched.setCoro]
      · exact .inl (.inl hrest)
    · exact .inl (.inr hin)

theorem queued_doCall {m : Machine} {entry : PendingEntry} (hq : m.Queued entry)
    (hpc : m.pc ≠ .polling) (c : Call) : (m.doCall c).Queued entry := by
  cases c with
  | schedule co arg =>
    change (m.callSchedule co arg).Queued entry
    unfold callSchedule
    rw [if_neg hpc]
    by_cases hdead : (m.sched.coros co).dead = true
    · rw [Sched.schedule_dead hdead]
      exact hq
    · rw [Sched.schedule_alive (by simpa using hdead)]
      exact hq.imp_right fun hin => List.mem_append_left _ hin
  | insertEvent t co args => exact hq
  | exit => exact hq

-- Outside of the poller, an entry stays queued until its coroutine gets control, unless a dead
-- coroutine's turn comes first.
theorem step_queued {m m' : Machine} {a : Act} (hstep : m.step a = some m') (hpc : m.pc ≠ .polling)
    {entry : PendingEntry} (hq : m.Queued entry)
    (halive : ∀ rule tv i co arg, a = .next rule tv → m.pc = .staging i →
      m.sched.staging[i]? = some (co, arg) → (m.sched.coros co).dead = false) :
    m'.Queued entry ∨ m'.Entered entry := by
  cases a with
  | enter rule tv =>
    rcases step_enter hstep with ⟨hout, rfl⟩
    exact .inl (queued_loopHead (hq.pending (by rw [hout]; rfl)))
  | test =>
    rcases step_test hstep with ⟨hrun, ⟨rfl, -⟩ | ⟨rfl, -⟩ | ⟨rfl, -⟩⟩
    · exact .inl (.inl (hq.pending (by rw [hrun]; rfl)))
    · exact .inl (.inr (hq.pending (by rw [hrun]; rfl)))
    · exact .inl (.inr (hq.pending (by rw [hrun]; rfl)))
  | next rule tv =>
    rcases m with ⟨s, pc⟩
    obtain ⟨i, rfl : pc = _, rfl⟩ := step_next hstep
    exact queued_next hq fun co arg hget => halive rule tv i co arg rfl rfl hget
  | call c =>
    rcases step_call hstep with ⟨-, rfl⟩
    exact .inl (queued_doCall hq hpc c)
  | yield co arg =>
    rcases m with ⟨s, pc⟩
    obtain ⟨i, rfl : pc = _, rfl⟩ := step_yield hstep
    exact .inl hq
  | finish =>
    rcases m with ⟨s, pc⟩
    obtain ⟨i, co, rfl : pc = _, -, rfl⟩ := step_finish hstep
    rcases finish_eq s co with ⟨coros, hfin, -⟩
    rw [hfin]
    exact .inl hq
  | pollReturn rule tv => exact absurd (step_pollReturn hstep).1 hpc
  | pollThrow => exact absurd (step_pollThrow hstep).1 hpc

/-! ## When the poller is called -/

theorem resolve_pc (o : Outcome Sched) (pc : Pc) :
    (resolve o pc).pc = pc ∨ (resolve o pc).pc = .outside := by
  cases o with
  | returned s => exact .inl rfl
  | deadCoro z s => exact .inr rfl

theorem loopHead_pc (rule : TopRule) (tv : Timeval) (s : Sched) :
    (loopHead rule tv s).pc = .runPending ∨ (loopHead rule tv s).pc = .outside := by
  unfold loopHead
  split
  · exact .inr rfl
  · exact resolve_pc _ _

theorem nextEntry_pc (rule : TopRule) (tv : Timeval) (m : Machine) (i : Nat) :
    (m.nextEntry rule tv i).pc ≠ .polling := by
  intro hpc
  unfold nextEntry at hpc
  split at hpc
  next co arg _ =>
    rcases resolve_pc (m.sched.resume co arg) (.inside i) with h | h <;> cases h.symm.trans hpc
  next =>
    rcases resolve_pc (({ m.sched with staging := [] } : Sched).scheduleEvents rule tv)
      .runPending with h | h <;> cases h.symm.trans hpc

-- The poller is called with nothing left to run, and not after `exit`.
theorem step_polling {m m' : Machine} {a : Act} (hstep : m.step a = some m')
    (hpc : m.pc ≠ .polling) (hpc' : m'.pc = .polling) :
    m'.sched.pending = [] ∧ m'.sched.exit = false := by
  cases a with
  | enter rule tv =>
    rcases step_enter hstep with ⟨-, rfl⟩
    rcases loopHead_pc rule tv m.sched with h | h <;> cases h.symm.trans hpc'
  | test =>
    rcases step_test hstep with ⟨-, ⟨rfl, -⟩ | ⟨rfl, -⟩ | ⟨rfl, hlen, hexit⟩⟩
    · cases hpc'
    · cases hpc'
    · exact ⟨List.eq_nil_of_length_eq_zero hlen, hexit⟩
  | next rule tv =>
    rcases step_next hstep with ⟨i, -, rfl⟩
    exact absurd hpc' (nextEntry_pc rule tv m i)
  | call c =>
    rcases step_call hstep with ⟨-, rfl⟩
    cases c with
    | schedule co arg =>
      change (m.callSchedule co arg).pc = .polling at hpc'
      unfold callSchedule at hpc'
      rw [if_neg hpc] at hpc'
      exact absurd hpc' hpc
    | insertEvent t co args => exact absurd hpc' hpc
    | exit => exact absurd hpc' hpc
  | yield co arg =>
    rcases step_yield hstep with ⟨i, -, rfl⟩
    cases hpc'
  | finish =>
    rcases step_finish hstep with ⟨i, co, -, -, rfl⟩
    cases hpc'
  | pollReturn rule tv => exact absurd (step_pollReturn hstep).1 hpc
  | pollThrow => exact absurd (step_pollThrow hstep).1 hpc

-- After every run in which no `Dead_Coro` was raised, the queue invariant holds.
theorem runs_fifo {acts : List Act} {m : Machine} (run : Runs acts m)
    (hq : m.sched.hist.raised = []) : Fifo m := by
  induction run with
  | nil => exact ⟨rfl, fun _ => rfl, by simp, by simp⟩
  | snoc _ hstep ih =>
    have hprev : _ = [] := List.prefix_nil.mp (hq ▸ step_raised hstep)
    exact (ih hprev).step hstep hq

/-- Scheduling is one global queue.  In every run without a `Dead_Coro`, the resumes made so far
    are a prefix of the `schedule` calls accepted so far, the rest being the unprocessed part of
    `_staging` followed by `_pending`; and a coroutine that had been resumed before, so that it
    was suspended in `yield`, gets from that `yield` the argument of exactly the call that this
    resume stands for. -/
theorem schedule_fifo {acts : List Act} {m : Machine} (run : Runs acts m)
    (hq : m.sched.hist.raised = []) :
    m.sched.hist.resumed.map Resumed.entry <+: m.sched.hist.accepted ∧
      m.sched.hist.accepted =
        m.sched.hist.resumed.map Resumed.entry ++ (m.unprocessed ++ m.sched.pending) ∧
      ∀ k r, m.sched.hist.resumed[k]? = some r →
        m.sched.hist.accepted[k]? = some r.entry ∧
        r.yielded =
          if r.entry.1 ∈ resumedBefore m.sched.hist.resumed k then some r.entry.2 else none := by
  have hfifo := runs_fifo run hq
  have hlog := hfifo.log
  rw [List.append_assoc] at hlog
  have hresumed : m.sched.hist.resumed.map Resumed.entry <+: m.sched.hist.accepted :=
    hlog ▸ List.prefix_append _ _
  refine ⟨hresumed, hlog, fun k r hr => ⟨?_, hfifo.delivered k r hr⟩⟩
  have hk : (m.sched.hist.resumed.map Resumed.entry)[k]? = some r.entry := by
    rw [List.getElem?_map, hr, Option.map_some]
  rw [hlog, List.getElem?_append_left (List.getElem?_eq_some_iff.mp hk).1]
  exact hk

-- Coroutine 1 runs, schedules itself with 9 and yields; the next round resumes it.
def twoRounds : List Act :=
  let tv : Timeval := ⟨0, 0⟩
  [.call (.schedule 1 7), .enter .first tv, .test, .next .first tv, .call (.schedule 1 9),
    .yield 1 5, .next .first tv, .test, .next .first tv]

theorem schedule_fifo_two_rounds :
    ∃ m, Runs twoRounds m ∧ m.sched.hist.raised = [] ∧
      m.sched.hist.resumed = [⟨(1, 7), none⟩, ⟨(1, 9), some 9⟩] ∧
      m.sched.hist.resumed.map Resumed.entry <+: m.sched.hist.accepted := by
  have hrun : Runs twoRounds _ := Transition.run_of_exec rfl
  exact ⟨_, hrun, rfl, rfl, (schedule_fifo hrun rfl).1⟩

end Machine

end Coropp
