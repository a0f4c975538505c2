import Coropp.Lost

/-!
# When nothing can run

The event loop calls the poller with nothing left to run.  At that moment everyone waits, and only a
timer or a descriptor can make anyone go on.
-/

namespace Coropp

open Transition Words

namespace System

variable {T : Type} {sys sys' : System T} {a : SysAct T}

/-! ## What a poll finds -/

theorem call_pc {c : UserCall T} (hstep : sys.call c = some sys') : sys'.pc = sys.pc := by
  cases c with
  | newCondVar | newLatch | newFifo | exit =>
    obtain rfl := Option.some.inj hstep
    rfl
  | launch co arg =>
    simp only [System.call] at hstep
    split at hstep
    · cases hstep
    · obtain rfl := Option.some.inj hstep
      rfl
  | wakeOne k arg | wakeAll k arg | latchWakeAll k | push k x =>
    rcases Option.map_eq_some_iff.mp hstep with ⟨q, -, rfl⟩
    rfl

theorem popTest_pc (sys : System T) (co : CoroId) (k i : Nat) :
    (sys.popTest co k i).pc = sys.pc ∨ (sys.popTest co k i).pc = .staging (i + 1) := by
  unfold System.popTest
  cases sys.fifos[k]? with
  | none => exact .inl rfl
  | some f =>
    dsimp only
    cases f.test with
    | some r => exact .inl rfl
    | none =>
      dsimp only
      cases f.cv.wait sys.sched with
      | none => exact .inl rfl
      | some r => exact .inr rfl

theorem goOn_pc (sys : System T) (i : Nat) :
    (sys.goOn i).pc = sys.pc ∨ (sys.goOn i).pc = .staging (i + 1) := by
  unfold System.goOn
  cases sys.running with
  | none => exact .inl rfl
  | some co =>
    dsimp only
    cases sys.popping co with
    | none => exact .inl rfl
    | some k => exact sys.popTest_pc co k i

theorem block_pc {co : CoroId} {i : Nat} {c : WaitCall} (hstep : sys.block co i c = some sys') :
    sys'.pc = sys.pc ∨ sys'.pc = .staging (i + 1) := by
  cases c with
  | sleep now msec | waitFor dir fd =>
    rcases Option.map_eq_some_iff.mp hstep with ⟨me, -, rfl⟩
    exact .inr rfl
  | cvWait k =>
    rcases Option.bind_eq_some_iff.mp hstep with ⟨cv, -, hwait⟩
    rcases Option.map_eq_some_iff.mp hwait with ⟨r, -, rfl⟩
    exact .inr rfl
  | latchWait k =>
    rcases Option.bind_eq_some_iff.mp hstep with ⟨l, -, hwait⟩
    split at hwait
    · obtain rfl := Option.some.inj hwait
      exact .inl rfl
    · rcases Option.map_eq_some_iff.mp hwait with ⟨r, -, rfl⟩
      exact .inr rfl
  | pop k =>
    obtain rfl := Option.some.inj hstep
    exact sys.popTest_pc co k i

/-- The poller is called with nothing left to run, and not after `exit`. -/
def PollsIdle (sys : System T) : Prop :=
  sys.pc = .polling → sys.sched.pending = [] ∧ sys.sched.exit = false

theorem step_pollsIdle (hstep : sys.step a = some sys') : sys'.PollsIdle := by
  intro hpc
  cases a with
  | enter rule tv =>
    rcases step_enter hstep with ⟨-, rfl⟩
    rcases Machine.loopHead_pc rule tv sys.sched with hpc' | hpc' <;> cases hpc'.symm.trans hpc
  | test =>
    rcases step_test hstep with ⟨m, hm, rfl⟩
    rcases Machine.step_test hm with ⟨-, ⟨rfl, -⟩ | ⟨rfl, -⟩ | ⟨rfl, hlen, hexit⟩⟩
    · cases hpc
    · cases hpc
    · exact ⟨List.eq_nil_of_length_eq_zero hlen, hexit⟩
  | next rule tv =>
    rcases step_next hstep with ⟨i, -, rfl⟩
    rcases goOn_pc (sys.withMachine (sys.toMachine.nextEntry rule tv i)) i with hpc' | hpc'
    · rw [hpc'] at hpc
      exact absurd hpc (Machine.nextEntry_pc rule tv sys.toMachine i)
    · cases hpc'.symm.trans hpc
  | finish =>
    rcases step_finish hstep with ⟨i, co, -, -, rfl⟩
    cases hpc
  | pollReturn rule tv r =>
    rcases step_pollReturn hstep with ⟨-, hpoll⟩
    unfold System.pollReturn at hpoll
    split at hpoll
    next p s _ =>
      obtain rfl := Option.some.inj hpoll
      rcases Machine.loopHead_pc rule tv s with hpc' | hpc' <;> cases hpc'.symm.trans hpc
    · obtain rfl := Option.some.inj hpoll
      cases hpc
    · cases hpoll
  | call c =>
    rcases step_call hstep with ⟨hcaller, hcall⟩
    rw [call_pc hcall] at hpc
    rcases hcaller with hcaller | ⟨i, hcaller⟩ <;> cases hcaller.symm.trans hpc
  | block c =>
    rcases step_block hstep with ⟨i, co, hpc', -, hblock⟩
    rcases block_pc hblock with h | h
    · cases hpc'.symm.trans (h.symm.trans hpc)
    · cases h.symm.trans hpc

/-- Nobody is ever resumed again, whatever the clock and the kernel say. -/
def Deadlocked (sys : System T) : Prop :=
  ∀ acts sys', Run (ofFun step) sys acts sys' →
    sys'.sched.hist.resumed = sys.sched.hist.resumed

/-- No timer and no registration is left, and the event loop goes around without anyone. -/
structure Stuck (sys : System T) : Prop where
  pc : sys.pc = .polling ∨ sys.pc = .runPending
  exit : sys.sched.exit = false
  pending : sys.sched.pending = []
  events : sys.sched.events = []
  registrations : sys.poller.registrations = []

theorem scheduleEvents_nil {rule : TopRule} {tv : Timeval} {s : Sched} (h : s.events = []) :
    s.scheduleEvents rule tv = .returned s := by
  rw [Sched.scheduleEvents, h]
  rfl

theorem loopHead_nil {rule : TopRule} {tv : Timeval} {s : Sched} (hexit : s.exit = false)
    (h : s.events = []) : Machine.loopHead rule tv s = ⟨s, .runPending⟩ := by
  rw [Machine.loopHead, if_neg (by simp [hexit]), scheduleEvents_nil h]
  rfl

theorem Stuck.step (h : sys.Stuck) (hstep : sys.step a = some sys') :
    sys'.Stuck ∧ sys'.sched.hist.resumed = sys.sched.hist.resumed := by
  have hnot : ∀ pc, sys.pc = pc → pc = .polling ∨ pc = .runPending := by
    rintro pc rfl
    exact h.pc
  cases a with
  | enter rule tv => rcases hnot _ (step_enter hstep).1 with hpc | hpc <;> cases hpc
  | test =>
    rcases step_test hstep with ⟨m, hm, rfl⟩
    rcases Machine.step_test hm with ⟨-, ⟨-, hlen⟩ | ⟨-, -, hexit⟩ | ⟨rfl, -⟩⟩
    · rw [h.pending] at hlen
      cases hlen
    · rw [h.exit] at hexit
      cases hexit
    · exact ⟨⟨.inl rfl, h.exit, h.pending, h.events, h.registrations⟩, rfl⟩
  | next rule tv =>
    rcases step_next hstep with ⟨i, hpc, -⟩
    rcases hnot _ hpc with hpc | hpc <;> cases hpc
  | finish =>
    rcases step_finish hstep with ⟨i, co, hpc, -⟩
    rcases hnot _ hpc with hpc | hpc <;> cases hpc
  | pollReturn rule tv r =>
    rcases step_pollReturn hstep with ⟨-, hpoll⟩
    have halive : ∀ v, sys.poller.Registered v → (sys.sched.coros v.co).dead = false := by
      intro v hv
      rw [← WaitSets.mem_registrations, h.registrations] at hv
      exact absurd hv List.not_mem_nil
    unfold System.pollReturn at hpoll
    cases hout : sys.poller.poll sys.sched r with
    | none =>
      rw [hout] at hpoll
      cases hpoll
    | some out =>
      rcases PollPoller.poll_alive hout halive with ⟨p, woken, rfl, hperm, -⟩
      rw [h.registrations] at hperm
      obtain ⟨rfl, hleft⟩ := List.append_eq_nil_iff.mp (List.nil_perm.mp hperm)
      rw [hout] at hpoll
      obtain rfl := Option.some.inj hpoll
      rw [List.map_nil, Sched.push_nil]
      rw [loopHead_nil h.exit h.events]
      exact ⟨⟨.inr rfl, h.exit, h.pending, h.events, hleft⟩, rfl⟩
  | call c =>
    rcases (step_call hstep).1 with hpc | ⟨i, hpc⟩
    · rcases hnot _ hpc with hpc | hpc <;> cases hpc
    · rcases hnot _ hpc with hpc | hpc <;> cases hpc
  | block c =>
    rcases step_block hstep with ⟨i, co, hpc, -⟩
    rcases hnot _ hpc with hpc | hpc <;> cases hpc

theorem Stuck.deadlocked (h : sys.Stuck) : sys.Deadlocked := by
  intro acts sys' run
  have hboth : sys'.Stuck ∧ sys'.sched.hist.resumed = sys.sched.hist.resumed := by
    apply run.invariant (I := fun t : System T =>
      t.Stuck ∧ t.sched.hist.resumed = sys.sched.hist.resumed) _ ⟨h, rfl⟩
    intro t l u ht hstep
    rcases ht.1.step hstep with ⟨hu, hsame⟩
    exact ⟨hu, hsame.trans ht.2⟩
  exact hboth.2

theorem goOn_resumed (sys : System T) (i : Nat) :
    (sys.goOn i).sched.hist.resumed = sys.sched.hist.resumed := by
  unfold System.goOn
  cases sys.running with
  | none => rfl
  | some co =>
    dsimp only
    cases sys.popping co with
    | none => rfl
    | some k =>
      unfold System.popTest
      dsimp only
      cases sys.fifos[k]? with
      | none => rfl
      | some f =>
        dsimp only
        cases f.test with
        | some r => rfl
        | none =>
          dsimp only
          unfold CondVar.wait
          cases sys.sched.current with
          | none => rfl
          | some me => rfl

-- Two steps on, the first of the pending entries has been resumed.
theorem not_deadlocked_of_pending (h : OneToken sys) (hpc : sys.pc = .runPending)
    (hpending : sys.sched.pending ≠ []) : ¬sys.Deadlocked := by
  intro hdead
  rcases List.exists_cons_of_ne_nil hpending with ⟨⟨co, arg⟩, rest, hcons⟩
  have hlen : sys.sched.pending.length > 0 := List.length_pos_iff.mpr hpending
  have htest : sys.step .test = some (sys.withMachine ⟨sys.sched.swapLists, .staging 0⟩) := by
    show (sys.toMachine.step .test).map sys.withMachine = _
    simp only [Machine.step, hpc, if_pos hlen, Option.map_some]
  have hnext : (sys.withMachine ⟨sys.sched.swapLists, .staging 0⟩).step (.next .first ⟨0, 0⟩) =
      some (((sys.withMachine ⟨sys.sched.swapLists, .staging 0⟩).withMachine
        (Machine.nextEntry .first ⟨0, 0⟩ ⟨sys.sched.swapLists, .staging 0⟩ 0)).goOn 0) := rfl
  have hsame := hdead _ _ ((Run.single htest).snoc hnext)
  rw [goOn_resumed] at hsame
  have hget : sys.sched.swapLists.staging[0]? = some (co, arg) := by
    show sys.sched.pending[0]? = some (co, arg)
    rw [hcons]
    rfl
  have halive : (sys.sched.swapLists.coros co).dead = false := by
    apply h.alive
    apply queued_tokens (e := (co, arg))
    right
    rw [hcons]
    exact .head _
  rw [show ((sys.withMachine ⟨sys.sched.swapLists, .staging 0⟩).withMachine
      (Machine.nextEntry .first ⟨0, 0⟩ ⟨sys.sched.swapLists, .staging 0⟩ 0)).sched =
      (Machine.nextEntry .first ⟨0, 0⟩ ⟨sys.sched.swapLists, .staging 0⟩ 0).sched from rfl,
    Machine.nextEntry_some (m := ⟨sys.sched.swapLists, .staging 0⟩) hget,
    Sched.resume_alive halive] at hsame
  have hlength := congrArg List.length hsame
  rw [show (Machine.resolve (.returned (sys.sched.swapLists.switchTo co arg)) (.inside 0)).sched =
      sys.sched.swapLists.switchTo co arg from rfl, Sched.switchTo_resumed,
    List.length_append, List.length_singleton] at hlength
  exact absurd hlength (Nat.succ_ne_self _)

theorem Deadlocked.step (h : sys.Deadlocked) (hstep : sys.step a = some sys') :
    sys'.Deadlocked := by
  intro acts t run
  have hfirst : Run (ofFun System.step) sys [a] sys' := Run.single hstep
  exact (h _ t (hfirst.trans run)).trans (h _ sys' hfirst).symm

-- The poller returns and somebody is pending.
theorem not_deadlocked_of_poll (h : OneToken sys) (hpc : sys.pc = .polling)
    (hexit : sys.sched.exit = false) {rule : TopRule} {tv : Timeval} {r : PollResponse}
    {p : PollPoller} {s s' : Sched} (hpoll : sys.poller.poll sys.sched r = some (.returned (p, s)))
    (hs : s.exit = sys.sched.exit) (hpass : s.scheduleEvents rule tv = .returned s')
    (hpending : s'.pending ≠ []) : ¬sys.Deadlocked := by
  intro hdead
  have hstep : sys.step (.pollReturn rule tv r) =
      some { sys with toMachine := Machine.loopHead rule tv s, poller := p } := by
    simp only [System.step, if_pos hpc, System.pollReturn, hpoll]
  have hhead : Machine.loopHead rule tv s = ⟨s', .runPending⟩ := by
    rw [Machine.loopHead, if_neg (by simp [hs, hexit]), hpass]
    rfl
  rw [hhead] at hstep
  exact not_deadlocked_of_pending (h.step hstep) rfl hpending (hdead.step hstep)

-- A clock that is late enough fires a timer.
theorem not_deadlocked_of_timer (h : OneToken sys) (hpc : sys.pc = .polling)
    (hexit : sys.sched.exit = false) (hcap : sys.poller.count ≤ sys.poller.size)
    (hevents : sys.sched.events ≠ []) : ¬sys.Deadlocked := by
  rcases List.exists_mem_of_ne_nil _ hevents with ⟨e, he⟩
  have hdue : timercmpLt e.t ⟨e.t.sec + 1, 0⟩ = true := by
    unfold timercmpLt
    dsimp only
    rw [if_neg (by omega)]
    exact decide_eq_true (by omega)
  have hpoll : sys.poller.poll sys.sched ⟨0, fun _ => 0⟩ =
      some (.returned (sys.poller.fillSlots.respond ⟨0, fun _ => 0⟩, sys.sched)) := by
    have hzero : ∀ slots st, PollPoller.dispatch slots 0 st = .returned st := by
      intro slots st
      cases slots <;> rfl
    rw [PollPoller.poll, if_neg (Nat.not_lt.mpr hcap)]
    dsimp only
    rw [if_neg (by decide), show (0 : Int).toNat = 0 from rfl, hzero]
    rfl
  rcases scheduleEvents_fires .first ⟨e.t.sec + 1, 0⟩ h.alive_events with
    ⟨fired, left, hpass, hperm, -, hleft⟩
  apply not_deadlocked_of_poll h hpc hexit hpoll rfl hpass
  have hfired : e ∈ fired := by
    rcases List.mem_append.mp (hperm.symm.subset he) with hfired | hin
    · exact hfired
    · rw [hleft e hin] at hdue
      cases hdue
  have hmem : e.entry ∈ sys.sched.pending ++ fired.map Event.entry :=
    List.mem_append_right _ (List.mem_map_of_mem hfired)
  exact List.ne_nil_of_mem hmem

-- The kernel may report the first slot.
theorem not_deadlocked_of_registration (h : OneToken sys) (hpc : sys.pc = .polling)
    (hexit : sys.sched.exit = false) (hcap : sys.poller.count ≤ sys.poller.size)
    (hregistrations : sys.poller.registrations ≠ []) : ¬sys.Deadlocked := by
  have hwaits : sys.poller.waits ≠ [] := by
    unfold PollPoller.waits
    rwa [ne_eq, List.reverse_eq_nil_iff]
  rcases List.exists_cons_of_ne_nil hwaits with ⟨v, vs, hcons⟩
  have hreg : sys.poller.Registered v := by
    rw [← PollPoller.mem_waits, hcons]
    exact .head _
  have halive : (sys.sched.coros v.co).dead = false :=
    h.alive (parked_tokens (g := .descriptor v.dir v.fd) hreg)
  have hdispatch : PollPoller.dispatch
      (window (sys.poller.fillSlots.respond ⟨1, fun _ => v.dir.bit⟩).pollSet 0
        (sys.poller.fillSlots.respond ⟨1, fun _ => v.dir.bit⟩).count) 1
      (sys.poller.toWaitSets, sys.sched) =
      .returned (sys.poller.erase v.dir v.fd, sys.sched.push [(v.co, 0)]) := by
    rw [PollPoller.window_respond, hcons, List.zipIdx_cons, List.map_cons, PollPoller.dispatch,
      PollPoller.dispatchSlot_bit rfl]
    rw [show PollPoller.fillFor v (sys.poller.pollSet 0) =
      ⟨v.fd, (sys.poller.pollSet 0).events ||| v.dir.bit, (sys.poller.pollSet 0).revents⟩ from rfl]
    rw [WaitSets.wake_alive hreg halive, Outcome.bind_returned]
    cases List.map _ (vs.zipIdx (0 + 1)) <;> rfl
  have hpoll : sys.poller.poll sys.sched ⟨1, fun _ => v.dir.bit⟩ =
      some (.returned ({ sys.poller.fillSlots.respond ⟨1, fun _ => v.dir.bit⟩ with
        toWaitSets := sys.poller.erase v.dir v.fd }, sys.sched.push [(v.co, 0)])) := by
    rw [PollPoller.poll, if_neg (Nat.not_lt.mpr hcap)]
    dsimp only
    rw [if_neg (by decide), show (1 : Int).toNat = 1 from rfl]
    change some (Outcome.map _ (PollPoller.dispatch _ 1 (sys.poller.toWaitSets, sys.sched))) = _
    rw [hdispatch]
    rfl
  rcases scheduleEvents_fires .first ⟨0, 0⟩ (s := sys.sched.push [(v.co, 0)]) h.alive_events with
    ⟨fired, left, hpass, -⟩
  apply not_deadlocked_of_poll h hpc hexit hpoll rfl hpass
  have hmem : (v.co, 0) ∈ (sys.sched.pending ++ [(v.co, 0)]) ++ fired.map Event.entry :=
    List.mem_append_left _ (List.mem_append_right _ (.head _))
  exact List.ne_nil_of_mem hmem

/-- When the poller is called, the program is deadlocked if and only if nobody sleeps and nobody waits
    on a descriptor: whoever waits on a condition variable, a latch or a fifo then waits for ever. -/
theorem deadlocked_iff {pollSet : Nat → Pollfd} {size : Nat} {acts : List (SysAct T)}
    (run : Runs pollSet size acts sys) (hpc : sys.pc = .polling)
    (hcap : sys.poller.count ≤ sys.poller.size) :
    sys.Deadlocked ↔ sys.sched.events = [] ∧ sys.poller.registrations = [] := by
  have hinv : OneToken sys ∧ sys.PollsIdle := by
    apply run.invariant (I := fun t : System T => OneToken t ∧ t.PollsIdle)
    · exact fun t a u h hstep => ⟨h.1.step hstep, step_pollsIdle hstep⟩
    · exact ⟨oneToken_init pollSet size, fun hpc => by cases hpc⟩
  rcases hinv with ⟨h, hidle⟩
  rcases hidle hpc with ⟨hpending, hexit⟩
  constructor
  · intro hdead
    constructor
    · by_contra hevents
      exact not_deadlocked_of_timer h hpc hexit hcap hevents hdead
    · by_contra hregistrations
      exact not_deadlocked_of_registration h hpc hexit hcap hregistrations hdead
  · rintro ⟨hevents, hregistrations⟩
    exact Stuck.deadlocked ⟨.inl hpc, hexit, hpending, hevents, hregistrations⟩

/-- Coroutine 1 waits in `pop`, and nobody is there to push. -/
theorem deadlocked_iff_pop :
    ∃ (acts : List (SysAct Nat)) (sys : System Nat), Runs (fun _ => ⟨0, 0, 0⟩) 8 acts sys ∧
      sys.pc = .polling ∧ sys.queues 1 = 1 ∧ sys.Deadlocked := by
  have hrun : Runs (fun _ => ⟨0, 0, 0⟩) 8 ([.call .newFifo, .call (.launch 1 0),
      .enter .first ⟨0, 0⟩, .test, .next .first ⟨0, 0⟩, .block (.pop 0), .next .first ⟨0, 0⟩,
      .test] : List (SysAct Nat)) _ := run_of_exec rfl
  exact ⟨_, _, hrun, rfl, by decide, (deadlocked_iff hrun rfl (by decide)).mpr ⟨rfl, by decide⟩⟩

end System

namespace WaitLog

variable {T : Type} {w : WaitLog T}

end WaitLog

end Coropp
