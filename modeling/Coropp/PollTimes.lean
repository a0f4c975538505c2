import Coropp.EventKqueue
import Coropp.EventPoll
import Coropp.EventSelect
import Coropp.Timeout

/-!
# How long the pollers wait

`event_loop` hands what `time_to_next_event` computes to its poller, which makes milliseconds, a
`timeval` or a `timespec` of it, the first two of them in `int`.
-/

namespace Coropp

open Transition

/-! ## The timeout -/

section

variable {w : LongWidth} {events : List Event} {now : Timeval} {d : Int}

theorem until_top (rule : TopRule) (hevents : ∀ e ∈ events, e.t.Normalised) (h : events ≠ []) :
    Until events now ((rule.top events h).t.micros - now.micros) where
  reached := ⟨_, rule.top_mem events h, rfl⟩
  least e he := by
    have hnot := rule.top_least events h e he
    rw [compareEvents, timercmpGt_eq_lt] at hnot
    have hle : ¬e.t.micros < (rule.top events h).t.micros := by
      intro hlt
      have hcmp := (timercmpLt_iff (hevents e he) (hevents _ (rule.top_mem events h))).mpr hlt
      cases hcmp.symm.trans hnot
    omega

-- The time to the earliest deadline, or 0 where that is not ahead or is a number of whole seconds.
theorem timeToNextEvent_eq (rule : TopRule) (hevents : ∀ e ∈ events, e.t.Normalised)
    (hnow : now.Normalised) (hd : Until events now d) (hlo : w.min ≤ d / 1000000)
    (hhi : d ≤ w.max) :
    timeToNextEvent w rule events now = some (if 0 < d ∧ d % 1000000 ≠ 0 then d else 0) := by
  have hne : events ≠ [] := by
    rcases hd.reached with ⟨e, he, -⟩
    exact List.ne_nil_of_mem he
  have htop := hd.top hevents rule hne
  have htopNorm := hevents _ (rule.top_mem events hne)
  have hmax := w.large
  have hmin : w.min = -w.max - 1 := rfl
  have hsecs : w.Holds ((rule.top events hne).t.sec - now.sec) := by
    unfold Timeval.Normalised at htopNorm hnow
    unfold Timeval.micros at htop
    unfold LongWidth.Holds
    omega
  have hdiv : w.Holds (d / 1000000) := by
    unfold LongWidth.Holds
    omega
  rw [timeToNextEvent, dif_neg hne, timersub_eq w htopNorm hnow htop, if_pos ⟨hsecs, hdiv⟩,
    Option.bind_some]
  dsimp only
  by_cases hahead : 0 < d ∧ d % 1000000 ≠ 0
  · have hholds : w.Holds d := by
      unfold LongWidth.Holds
      omega
    rw [if_pos hahead, if_pos (by omega), timeout_eq w (by omega), LongWidth.checked_of_holds hholds]
  · rw [if_neg hahead, if_neg (by omega)]

end

/-! ## Where the timers come from -/

theorem scheduleEvents_subset (rule : TopRule) (tv : Timeval) (s : Sched) :
    (s.scheduleEvents rule tv).state.events ⊆ s.events := by
  rcases Sched.scheduleEvents_exact rule tv s with ⟨r, hout, hperm, -⟩
  rw [hout, Sched.swept_events]
  exact fun e he => hperm.subset (List.mem_append_right _ he)

theorem resume_subset (s : Sched) (co : CoroId) (arg : Arg) :
    (s.resume co arg).state.events ⊆ s.events := by
  unfold Sched.resume
  split <;> exact List.Subset.refl _

theorem schedule_subset (s : Sched) (co : CoroId) (arg : Arg) :
    (s.schedule co arg).state.events ⊆ s.events := by
  unfold Sched.schedule
  split <;> exact List.Subset.refl _

namespace Machine

variable {m m' : Machine} {a : Act}

theorem loopHead_subset (rule : TopRule) (tv : Timeval) (s : Sched) :
    (loopHead rule tv s).sched.events ⊆ s.events := by
  unfold loopHead
  split
  · exact List.Subset.refl _
  · exact scheduleEvents_subset rule tv s

theorem nextEntry_subset (rule : TopRule) (tv : Timeval) (i : Nat) :
    (m.nextEntry rule tv i).sched.events ⊆ m.sched.events := by
  unfold nextEntry
  split
  · rename_i co arg _
    exact resume_subset m.sched co arg
  · exact scheduleEvents_subset rule tv { m.sched with staging := [] }

-- The scheduler takes timers out, and only `insert_event` puts one in.
theorem step_timers (h : m.step a = some m') :
    (∃ t co args, a = .call (.insertEvent t co args)) ∨ m'.sched.events ⊆ m.sched.events := by
  cases a with
  | enter rule tv =>
    obtain rfl := (step_enter h).2
    exact .inr (loopHead_subset rule tv m.sched)
  | test =>
    rcases (step_test h).2 with ⟨rfl, -⟩ | ⟨rfl, -⟩ | ⟨rfl, -⟩
    · exact .inr (List.Subset.refl _)
    · exact .inr (List.Subset.refl _)
    · exact .inr (List.Subset.refl _)
  | next rule tv =>
    rcases step_next h with ⟨i, -, rfl⟩
    exact .inr (nextEntry_subset rule tv i)
  | call c =>
    obtain rfl := (step_call h).2
    cases c with
    | schedule co arg =>
      apply Or.inr
      show (m.callSchedule co arg).sched.events ⊆ m.sched.events
      unfold callSchedule
      split <;> exact schedule_subset m.sched co arg
    | insertEvent t co args => exact .inl ⟨t, co, args, rfl⟩
    | exit => exact .inr (List.Subset.refl _)
  | yield co arg =>
    rcases step_yield h with ⟨i, -, rfl⟩
    exact .inr (List.Subset.refl _)
  | finish =>
    rcases step_finish h with ⟨i, co, -, -, rfl⟩
    rcases finish_eq m.sched co with ⟨coros, heq, -⟩
    rw [heq]
    exact .inr (List.Subset.refl _)
  | pollReturn rule tv =>
    obtain rfl := (step_pollReturn h).2
    exact .inr (loopHead_subset rule tv m.sched)
  | pollThrow =>
    obtain rfl := (step_pollThrow h).2
    exact .inr (List.Subset.refl _)

end Machine

namespace TimerWorld

variable {w w' : TimerWorld}

theorem step_timers {a : TimerAct} (h : w.step a = some w') :
    (∃ t co args, a = .machine (.call (.insertEvent t co args))) ∨
      ∀ e ∈ w'.sched.events, e ∈ w.sched.events ∨
        ∃ self now msec, a = .sleep self now msec ∧ e.t = sleepDeadline now msec := by
  cases a with
  | machine a =>
    rcases Option.map_eq_some_iff.mp h with ⟨m, hm, rfl⟩
    rcases Machine.step_timers hm with ⟨t, co, args, rfl⟩ | hsub
    · exact .inl ⟨t, co, args, rfl⟩
    · exact .inr fun e he => .inl (hsub he)
  | sleep self now msec =>
    simp only [step] at h
    split at h
    · obtain rfl := Option.some.inj h
      refine .inr fun e he => ?_
      rcases List.mem_cons.mp he with rfl | he
      · exact .inr ⟨self, now, msec, rfl, rfl⟩
      · exact .inl he
    · cases h

-- Every timer of a run comes from a `sleep`, where none is inserted otherwise.
theorem runs_timers {acts : List TimerAct} (run : Runs acts w)
    (hacts : ∀ t co args, .machine (.call (.insertEvent t co args)) ∉ acts) :
    ∀ e ∈ w.sched.events, ∃ self now msec,
      .sleep self now msec ∈ acts ∧ e.t = sleepDeadline now msec := by
  induction run with
  | nil => exact fun e he => absurd he List.not_mem_nil
  | @snoc acts w w' a run h ih =>
    intro e he
    rcases step_timers h with ⟨t, co, args, rfl⟩ | hfrom
    · exact absurd (List.mem_append_right _ (.head _)) (hacts t co args)
    · rcases hfrom e he with hold | ⟨self, now, msec, rfl, ht⟩
      · have hearlier := fun t co args hmem => hacts t co args (List.mem_append_left _ hmem)
        rcases ih hearlier e hold with ⟨self, now, msec, hmem, ht⟩
        exact ⟨self, now, msec, List.mem_append_left _ hmem, ht⟩
      · exact ⟨self, now, msec, List.mem_append_right _ (.head _), ht⟩

end TimerWorld

/-! ## What the kernel is asked for -/

/-- The program's timers are those of `sleep`, whose `msec` is an `int` that is not negative, and the
    clock reads `t0` or less in each of these calls. -/
def TimerAct.Before (t0 : Timeval) : TimerAct → Prop
  | .machine (.call (.insertEvent _ _ _)) => False
  | .machine _ => True
  | .sleep _ now msec =>
    now.Normalised ∧ 0 ≤ now.sec ∧ now.micros ≤ t0.micros ∧ 0 ≤ msec ∧ msec < 0x80000000

/-- `timeout_usec`, as each of the pollers passes it on: without loss but for the part of a
    millisecond that `::poll` does not wait, and with no deadline before it. -/
structure PassedOn (events : List Event) (t0 : Timeval) (timeoutUsec : Int) : Prop where
  notNegative : 0 ≤ timeoutUsec
  notLate : ∀ e ∈ events, timeoutUsec ≤ max 0 (e.t.micros - t0.micros)
  poll : ∀ p : PollPoller, (p.call timeoutUsec).timeout = timeoutUsec / 1000
  select : ∀ p : SelectPoller,
    let tv := (p.call timeoutUsec).timeout
    tv.Normalised ∧ tv.micros = timeoutUsec
  kqueue : ∀ p : KqueuePoller,
    let ts := (p.call timeoutUsec).timeout
    0 ≤ ts.nsec ∧ ts.nsec < 1000000000 ∧ ts.sec * 1000000000 + ts.nsec = timeoutUsec * 1000

theorem passedOn_of_small {events : List Event} {t0 : Timeval} {u : Int} (hlo : 0 ≤ u)
    (hhi : u < 0x80000000 * 1000) (hlate : ∀ e ∈ events, u ≤ max 0 (e.t.micros - t0.micros)) :
    PassedOn events t0 u where
  notNegative := hlo
  notLate := hlate
  poll p := by
    show toInt32 (u.tdiv 1000) = u / 1000
    rw [Int.tdiv_eq_ediv_of_nonneg hlo]
    exact toInt32_of_small (by omega) (by omega)
  select p := by
    have htv : (p.call u).timeout = ⟨u / 1000000, u % 1000000⟩ := by
      rw [← toInt32_of_small (x := u / 1000000) (by omega) (by omega),
        ← toInt32_of_small (x := u % 1000000) (by omega) (by omega),
        ← Int.tdiv_eq_ediv_of_nonneg hlo, ← Int.tmod_eq_emod_of_nonneg hlo]
      rfl
    rw [htv]
    unfold Timeval.Normalised Timeval.micros
    dsimp only
    omega
  kqueue p := by
    have hts : (p.call u).timeout = ⟨u / 1000000, u % 1000000 * 1000⟩ := by
      rw [← Int.tdiv_eq_ediv_of_nonneg hlo, ← Int.tmod_eq_emod_of_nonneg hlo]
      unfold KqueuePoller.call
      rw [if_neg (by omega)]
    rw [hts]
    dsimp only
    omega

namespace TimerWorld

variable {w : TimerWorld} {acts : List TimerAct} {t0 : Timeval}

/-- In every run of a program that sleeps, and at every reading of its clock, as long as that is not
    set back: where `long` has 64 bits, the time to the next event is defined, it goes past no
    deadline, and the pollers pass it on. -/
theorem timeouts_passed_on (run : Runs acts w) (hacts : ∀ a ∈ acts, a.Before t0)
    (ht0 : t0.Normalised) (hsec : LongWidth.bits64.Holds t0.sec) (rule : TopRule) :
    ∃ u, timeToNextEvent .bits64 rule w.sched.events t0 = some u ∧
      PassedOn w.sched.events t0 u := by
  have hevents : ∀ e ∈ w.sched.events, e.t.Normalised ∧ 0 ≤ e.t.micros ∧
      e.t.micros - t0.micros < 0x80000000 * 1000 := by
    intro e he
    have hnone : ∀ t co args, TimerAct.machine (.call (.insertEvent t co args)) ∉ acts :=
      fun t co args hmem => hacts _ hmem
    rcases runs_timers run hnone e he with ⟨self, now, msec, hmem, ht⟩
    rcases hacts _ hmem with ⟨hnow, hpos, hle, hmsec, hint⟩
    have hexact := sleepDeadline_exact hnow hmsec
    have hmicros : 0 ≤ now.micros := by
      unfold Timeval.micros
      have husec := hnow.1
      omega
    rw [ht]
    exact ⟨hexact.1, by omega, by omega⟩
  by_cases hne : w.sched.events = []
  · refine ⟨30000000, dif_pos hne, passedOn_of_small (by decide) (by decide) fun e he => ?_⟩
    rw [hne] at he
    exact absurd he List.not_mem_nil
  · have hd : Until w.sched.events t0 _ := until_top rule (fun e he => (hevents e he).1) hne
    rcases hd.reached with ⟨e, he, hreached⟩
    have hleast := hd.least
    generalize (rule.top w.sched.events hne).t.micros - t0.micros = d at hd hreached hleast
    have hbounds := (hevents e he).2
    have hmin : LongWidth.bits64.min ≤ d / 1000000 := by
      have hmicros : t0.micros = t0.sec * 1000000 + t0.usec := rfl
      have hmax := hsec.2
      have hnorm := ht0.2
      have hmin : LongWidth.bits64.min = -LongWidth.bits64.max - 1 := rfl
      omega
    have hmax : d ≤ LongWidth.bits64.max := by
      show d ≤ 0x7fffffffffffffff
      omega
    refine ⟨_, timeToNextEvent_eq rule (fun e he => (hevents e he).1) ht0 hd hmin hmax, ?_⟩
    apply passedOn_of_small
    · split <;> omega
    · split <;> omega
    · intro e he
      have hle := hleast e he
      split <;> omega

/-- A coroutine sleeps for 250 ms at 5 s. -/
def nap : List TimerAct :=
  [.machine (.call (.schedule 1 0)), .machine (.enter .first ⟨4, 0⟩), .machine .test,
    .machine (.next .first ⟨4, 0⟩), .sleep 1 ⟨5, 0⟩ 250, .machine (.next .first ⟨5, 50⟩),
    .machine .test]

theorem timeouts_passed_on_nap : ∃ w, Runs nap w ∧ w.pc = .polling ∧
    w.sched.events = [⟨⟨5, 250000⟩, 0, 1⟩] ∧
    ∃ u, timeToNextEvent .bits64 .first w.sched.events ⟨5, 100⟩ = some u ∧
      PassedOn w.sched.events ⟨5, 100⟩ u := by
  have hrun : Runs nap _ := run_of_exec rfl
  have hacts : ∀ a ∈ nap, a.Before ⟨5, 100⟩ := by
    simp [nap, TimerAct.Before, Timeval.Normalised, Timeval.micros]
  exact ⟨_, hrun, rfl, rfl, timeouts_passed_on hrun hacts (by decide) (by decide) .first⟩

-- With the clock set back by 25 days, `::poll` gets a negative number of milliseconds, and waits
-- without end.
example : timeToNextEvent .bits64 .first [⟨⟨2160000, 1⟩, 0, 1⟩] ⟨0, 0⟩ = some 2160000000001 ∧
    toInt32 (2160000000001 / 1000) < 0 := by decide

end TimerWorld

end Coropp
