import Coropp.Expiry
import Coropp.EventLoop

/-!
# After `exit`

`event_loop` looks at `_exit` before and after `run_pending`, which does not: it goes on until
`_pending` is empty.  So where a coroutine calls `exit`, what is queued is still resumed, and what is
scheduled meanwhile, but the poller is not called again.  Called from anywhere else, `exit` stops
everything at once, and what is queued stays queued.
-/

namespace Coropp

open Transition

-- Inside the loops of run_pending.
def Pc.draining : Pc → Bool
  | .runPending | .staging _ | .inside _ => true
  | .outside | .polling => false

namespace Machine

/-- What has been resumed, and then what is queued. -/
def agenda (m : Machine) : List PendingEntry :=
  m.sched.hist.resumed.map Resumed.entry ++ m.unprocessed ++ m.sched.pending

/-- A bound for the steps that `event_loop` takes once `exit` has been called, if nothing more is
    accepted: an entry takes two, and the round that it may begin another two. -/
def work (m : Machine) : Nat :=
  match m.pc with
  | .outside => 0
  | .polling => 1
  | .runPending => 4 * m.sched.pending.length + 1
  | .staging i => 2 * (m.sched.staging.length - i) + 4 * m.sched.pending.length + 2
  | .inside i => 2 * (m.sched.staging.length - (i + 1)) + 4 * m.sched.pending.length + 3

end Machine

/-- The steps of `event_loop`, and those that give control back to it. -/
def Act.loopSteps : Act → Nat
  | .enter _ _ | .call _ => 0
  | .test | .next _ _ | .yield _ _ | .finish | .pollReturn _ _ | .pollThrow => 1

def loopSteps (acts : List Act) : Nat := acts.foldl (fun n a => n + a.loopSteps) 0

namespace Machine

/-- A step after `exit` that accepts the entries `es` and counts for `cost` steps. -/
structure Drain (m m' : Machine) (cost : Nat) (es : List PendingEntry) : Prop where
  accepted : m'.sched.hist.accepted = m.sched.hist.accepted ++ es
  exit : m'.sched.exit = true
  poller : m'.pc = .polling → m.pc = .polling
  clear : m'.pc = .runPending → m'.sched.staging = []
  agenda : m'.pc.draining = true → m.pc.draining = true ∧ m'.agenda = m.agenda ++ es
  left : m'.pc.draining = false → m'.sched.hist.resumed = m.sched.hist.resumed
  work : cost + m'.work ≤ m.work + 4 * es.length

section Steps

variable {m m' : Machine}

-- A step that leaves the loops, or stays outside of them.
theorem drain_outside {s s' : Sched} {pc : Pc} {cost : Nat}
    (haccepted : s'.hist.accepted = s.hist.accepted) (hresumed : s'.hist.resumed = s.hist.resumed)
    (hexit : s'.exit = true) (hcost : cost ≤ (⟨s, pc⟩ : Machine).work) :
    Drain ⟨s, pc⟩ ⟨s', .outside⟩ cost [] where
  accepted := haccepted.trans (List.append_nil _).symm
  exit := hexit
  poller := fun h => nomatch h
  clear := fun h => nomatch h
  agenda := fun h => nomatch h
  left := fun _ => hresumed
  work := hcost

-- Whoever has control schedules the entries, and goes on.
theorem drain_push {s s' : Sched} {pc : Pc} {es : List PendingEntry} (hcaller : callerPc pc = true)
    (haccepted : s'.hist.accepted = s.hist.accepted ++ es)
    (hpending : s'.pending = s.pending ++ es) (hresumed : s'.hist.resumed = s.hist.resumed)
    (hstaging : s'.staging = s.staging) (hexit : s'.exit = true) :
    Drain ⟨s, pc⟩ ⟨s', pc⟩ 0 es where
  accepted := haccepted
  exit := hexit
  poller := fun h => h
  clear := by
    rintro (rfl : pc = .runPending)
    cases hcaller
  agenda := fun hpc => by
    refine ⟨hpc, ?_⟩
    simp only [Machine.agenda, unprocessed, hresumed, hpending, hstaging, List.append_assoc]
  left := fun _ => hresumed
  work := by
    have hlen : s'.pending.length = s.pending.length + es.length := by
      rw [hpending, List.length_append]
    cases pc with
    | outside => exact Nat.zero_le _
    | polling => exact Nat.le_add_right 1 _
    | inside i =>
      show 0 + (2 * (s'.staging.length - (i + 1)) + 4 * s'.pending.length + 3) ≤
        2 * (s.staging.length - (i + 1)) + 4 * s.pending.length + 3 + 4 * es.length
      rw [hstaging, hlen]
      omega
    | runPending => cases hcaller
    | staging i => cases hcaller

theorem drain_test (hexit : m.sched.exit = true)
    (hclear : m.pc = .runPending → m.sched.staging = []) (hstep : m.step .test = some m') : Drain m m' 1 [] := by
  rcases m with ⟨s, pc⟩
  obtain ⟨rfl : pc = _, ⟨rfl, hlen⟩ | ⟨rfl, hlen, -⟩ | ⟨rfl, -, hnot⟩⟩ := step_test hstep
  · have hempty : s.staging = [] := hclear rfl
    exact {
      accepted := (List.append_nil _).symm
      exit := hexit
      poller := fun h => nomatch h
      clear := fun h => nomatch h
      agenda := fun _ => by
        refine ⟨rfl, ?_⟩
        simp only [Machine.agenda, unprocessed, Sched.swapLists, hempty, List.drop_zero,
          List.append_nil]
      left := fun _ => rfl
      work := by
        show 1 + (2 * (s.pending.length - 0) + 4 * s.staging.length + 2) ≤
          4 * s.pending.length + 1 + 4 * 0
        rw [hempty, List.length_nil]
        have hlen' : 0 < s.pending.length := hlen
        omega }
  · exact drain_outside rfl rfl hexit (Nat.le_add_left 1 _)
  · rw [show s.exit = true from hexit] at hnot
    cases hnot

-- A coroutine gives control back.
theorem drain_back {s : Sched} {i : Nat} (hexit : s.exit = true) (coros : CoroId → Coro) :
    Drain ⟨s, .inside i⟩ ⟨{ s with coros := coros }, .staging (i + 1)⟩ 1 [] where
  accepted := (List.append_nil _).symm
  exit := hexit
  poller := fun h => nomatch h
  clear := fun h => nomatch h
  agenda := fun _ => ⟨rfl, (List.append_nil _).symm⟩
  left := fun h => nomatch h
  work := by
    show 1 + (2 * (s.staging.length - (i + 1)) + 4 * s.pending.length + 2) ≤
      2 * (s.staging.length - (i + 1)) + 4 * s.pending.length + 3 + 4 * 0
    omega

-- The end of a round: the pass over the timers may accept entries, and may throw.
theorem drain_round {rule : TopRule} {tv : Timeval} {s : Sched} {i : Nat} (hexit : s.exit = true)
    (hget : s.staging[i]? = none) :
    ∃ es, Drain ⟨s, .staging i⟩ (Machine.nextEntry rule tv ⟨s, .staging i⟩ i) 1 es := by
  rw [nextEntry_none hget]
  unfold Sched.scheduleEvents
  rw [Sched.scheduleEventsLoop_swept]
  generalize sweep id rule tv _ _ _ = r
  refine ⟨r.fired.map Event.entry, ?_⟩
  have hlen : s.staging.length - i = 0 := Nat.sub_eq_zero_of_le (List.getElem?_eq_none_iff.mp hget)
  unfold Sched.swept
  cases r.zombie with
  | none =>
    exact {
      accepted := rfl
      exit := hexit
      poller := fun h => nomatch h
      clear := fun _ => rfl
      agenda := fun _ => by
        refine ⟨rfl, ?_⟩
        show s.hist.resumed.map Resumed.entry ++ [] ++ (s.pending ++ _) =
          s.hist.resumed.map Resumed.entry ++ s.staging.drop i ++ s.pending ++ _
        rw [drop_of_none hget, List.append_assoc _ s.pending]
      left := fun h => nomatch h
      work := by
        show 1 + (4 * (s.pending ++ _).length + 1) ≤
          2 * (s.staging.length - i) + 4 * s.pending.length + 2 + 4 * _
        rw [hlen, List.length_append]
        omega }
  | some z =>
    exact {
      accepted := rfl
      exit := hexit
      poller := fun h => nomatch h
      clear := fun h => nomatch h
      agenda := fun h => nomatch h
      left := fun _ => rfl
      work := by
        show 1 + 0 ≤ 2 * (s.staging.length - i) + 4 * s.pending.length + 2 + 4 * _
        omega }

theorem drain_next {rule : TopRule} {tv : Timeval} (hexit : m.sched.exit = true)
    (hstep : m.step (.next rule tv) = some m') : ∃ es, Drain m m' 1 es := by
  rcases m with ⟨s, pc⟩
  obtain ⟨i, rfl : pc = _, rfl⟩ := step_next hstep
  cases hget : s.staging[i]? with
  | none => exact drain_round hexit hget
  | some entry =>
    rcases entry with ⟨co, arg⟩
    refine ⟨[], ?_⟩
    rw [nextEntry_some hget]
    by_cases hdead : (s.coros co).dead = true
    · rw [Sched.resume_dead hdead]
      exact drain_outside rfl rfl hexit (Nat.le_add_left 1 _)
    · rw [Sched.resume_alive (by simpa using hdead)]
      exact {
        accepted := (List.append_nil _).symm
        exit := hexit
        poller := fun h => nomatch h
        clear := fun h => nomatch h
        agenda := fun _ => by
          refine ⟨rfl, ?_⟩
          show (s.switchTo co arg).hist.resumed.map Resumed.entry ++ s.staging.drop (i + 1) ++
            s.pending = s.hist.resumed.map Resumed.entry ++ s.staging.drop i ++ s.pending ++ []
          rw [Sched.switchTo_resumed, drop_of_some hget, List.map_append]
          simp only [List.append_assoc, List.append_nil]
          rfl
        left := fun h => nomatch h
        work := by
          show 1 + (2 * (s.staging.length - (i + 1)) + 4 * s.pending.length + 3) ≤
            2 * (s.staging.length - i) + 4 * s.pending.length + 2 + 4 * 0
          have hlt : i < s.staging.length := (List.getElem?_eq_some_iff.mp hget).1
          omega }

theorem drain_call {c : Call} (hexit : m.sched.exit = true)
    (hstep : m.step (.call c) = some m') : ∃ es, Drain m m' 0 es := by
  rcases m with ⟨s, pc⟩
  rcases step_call hstep with ⟨hcaller, rfl⟩
  cases c with
  | schedule co arg =>
    show ∃ es, Drain _ (callSchedule ⟨s, pc⟩ co arg) 0 es
    by_cases hdead : (s.coros co).dead = true
    · refine ⟨[], ?_⟩
      unfold callSchedule
      rw [Sched.schedule_dead hdead]
      split
      · exact drain_outside rfl rfl hexit (Nat.zero_le _)
      · exact drain_push hcaller (List.append_nil _).symm (List.append_nil _).symm rfl rfl hexit
    · rw [callSchedule_alive arg (by simpa using hdead)]
      exact ⟨[(co, arg)], drain_push hcaller rfl rfl rfl rfl hexit⟩
  | insertEvent t co args =>
    exact ⟨[], drain_push hcaller (List.append_nil _).symm (List.append_nil _).symm rfl rfl hexit⟩
  | exit =>
    exact ⟨[], drain_push hcaller (List.append_nil _).symm (List.append_nil _).symm rfl rfl rfl⟩

theorem step_drain {a : Act} (hexit : m.sched.exit = true)
    (hclear : m.pc = .runPending → m.sched.staging = []) (hstep : m.step a = some m') :
    ∃ es, Drain m m' a.loopSteps es := by
  cases a with
  | enter rule tv =>
    rcases m with ⟨s, pc⟩
    obtain ⟨rfl : pc = _, rfl⟩ := step_enter hstep
    rw [show loopHead rule tv s = ⟨s, .outside⟩ from if_pos hexit]
    exact ⟨[], drain_outside rfl rfl hexit (Nat.le_refl _)⟩
  | test => exact ⟨[], drain_test hexit hclear hstep⟩
  | next rule tv => exact drain_next hexit hstep
  | call c => exact drain_call hexit hstep
  | yield co arg =>
    rcases m with ⟨s, pc⟩
    obtain ⟨i, rfl : pc = _, rfl⟩ := step_yield hstep
    exact ⟨[], drain_back hexit (s.yield co arg).coros⟩
  | finish =>
    rcases m with ⟨s, pc⟩
    obtain ⟨i, co, rfl : pc = _, -, rfl⟩ := step_finish hstep
    rcases finish_eq s co with ⟨coros, hfinish, -⟩
    rw [hfinish]
    exact ⟨[], drain_back hexit coros⟩
  | pollReturn rule tv =>
    rcases m with ⟨s, pc⟩
    obtain ⟨rfl : pc = _, rfl⟩ := step_pollReturn hstep
    rw [show loopHead rule tv s = ⟨s, .outside⟩ from if_pos hexit]
    exact ⟨[], drain_outside rfl rfl hexit (Nat.le_refl _)⟩
  | pollThrow =>
    rcases m with ⟨s, pc⟩
    obtain ⟨rfl : pc = _, rfl⟩ := step_pollThrow hstep
    exact ⟨[], drain_outside rfl rfl hexit (Nat.le_refl _)⟩

end Steps

/-! ## Runs -/

/-- Since `exit`, in the state `m₀`, `steps` steps have been made. -/
structure Exited (m₀ m : Machine) (steps : Nat) : Prop where
  exit : m.sched.exit = true
  poller : m.pc = .polling → m₀.pc = .polling
  outside : m₀.pc.draining = false →
    m.pc.draining = false ∧ m.sched.hist.resumed = m₀.sched.hist.resumed
  clear : m.pc = .runPending → m.sched.staging = []
  queue : ∃ es, m.sched.hist.accepted = m₀.sched.hist.accepted ++ es ∧
    (m.pc.draining = true → m.agenda = m₀.agenda ++ es) ∧
    m.sched.hist.resumed.map Resumed.entry <+: m₀.agenda ++ es ∧
    steps + m.work ≤ m₀.work + 4 * es.length

variable {m₀ m m' : Machine}

theorem Exited.step {steps : Nat} {a : Act} (h : Exited m₀ m steps) (hstep : m.step a = some m') :
    Exited m₀ m' (steps + a.loopSteps) := by
  rcases step_drain h.exit h.clear hstep with ⟨more, hdrain⟩
  rcases h.queue with ⟨es, haccepted, hagenda, hresumed, hwork⟩
  have hnext : m'.pc.draining = true → m'.agenda = m₀.agenda ++ (es ++ more) := by
    intro hpc
    have hgo := hdrain.agenda hpc
    rw [hgo.2, hagenda hgo.1, List.append_assoc]
  have hstays : m₀.pc.draining = false →
      m'.pc.draining = false ∧ m'.sched.hist.resumed = m₀.sched.hist.resumed := by
    intro hpc₀
    rcases h.outside hpc₀ with ⟨hpc, hsame⟩
    have hpc' : m'.pc.draining = false := by
      by_contra hnot
      cases hpc.symm.trans (hdrain.agenda (by simpa using hnot)).1
    exact ⟨hpc', (hdrain.left hpc').trans hsame⟩
  refine ⟨hdrain.exit, fun hpc => h.poller (hdrain.poller hpc), hstays, hdrain.clear, es ++ more, ?_,
    hnext, ?_, ?_⟩
  · rw [hdrain.accepted, haccepted, List.append_assoc]
  · cases hpc : m'.pc.draining with
    | true =>
      rw [← hnext hpc, agenda, List.append_assoc]
      exact List.prefix_append _ _
    | false =>
      rw [hdrain.left hpc, ← List.append_assoc]
      exact hresumed.trans (List.prefix_append _ _)
  · have hcost := hdrain.work
    rw [List.length_append]
    omega

end Machine

end Coropp
