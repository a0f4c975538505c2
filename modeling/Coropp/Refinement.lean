import Coropp.WakeCauses

/-!
# A whole program refines the scheduler

Every step of a whole program is a few steps of the bare scheduler: the poller and the classes of
`sync.h` reach it through `schedule` and `yield` only.  So what holds of all runs of the scheduler
holds of all runs of a program.
-/

namespace Coropp

open Transition

namespace Machine

-- Whoever has control may schedule live coroutines one after the other.
theorem run_push {m : Machine} (hpc : callerPc m.pc = true) (es : List PendingEntry)
    (halive : ∀ e ∈ es, (m.sched.coros e.1).dead = false) :
    ∃ acts, Run (ofFun step) m acts ⟨m.sched.push es, m.pc⟩ := by
  induction es using List.reverseRecOn with
  | nil =>
    rw [Sched.push_nil]
    exact ⟨[], .nil⟩
  | append_singleton es e ih =>
    rcases ih fun x hx => halive x (List.mem_append_left _ hx) with ⟨acts, hrun⟩
    have hdead : ((m.sched.push es).coros e.1).dead = false :=
      halive e (List.mem_append_right _ (.head _))
    refine ⟨acts ++ [.call (.schedule e.1 e.2)], hrun.snoc ?_⟩
    unfold ofFun
    simp only [step, hpc, if_true, doCall]
    rw [callSchedule_alive (m := ⟨m.sched.push es, m.pc⟩) e.2 hdead, Sched.push_push]

theorem run_yield {s : Sched} {i : Nat} (co : CoroId) (arg : Arg) :
    Run (ofFun step) ⟨s, .inside i⟩ [.yield co arg] ⟨s.yield co arg, .staging (i + 1)⟩ :=
  Run.single rfl

end Machine

namespace System

variable {T : Type} {sys sys' : System T} {a : SysAct T}

/-- The scheduler of the program gets from one step to the next by steps of its own. -/
def Simulated (sys sys' : System T) : Prop :=
  ∃ acts, Run (ofFun Machine.step) sys.toMachine acts sys'.toMachine

theorem Simulated.refl (h : sys'.toMachine = sys.toMachine) : Simulated sys sys' := by
  refine ⟨[], ?_⟩
  rw [h]
  exact .nil

theorem Simulated.single {m : Machine} {b : Act} (h : sys.toMachine.step b = some m) :
    Simulated sys (sys.withMachine m) :=
  ⟨[b], Run.single h⟩

theorem Simulated.pushed (hpc : Machine.callerPc sys.pc = true) (es : List PendingEntry)
    (halive : ∀ e ∈ es, (sys.sched.coros e.1).dead = false)
    (hm : sys'.toMachine = ⟨sys.sched.push es, sys.pc⟩) : Simulated sys sys' := by
  rcases Machine.run_push hpc es halive with ⟨acts, hrun⟩
  refine ⟨acts, ?_⟩
  rw [hm]
  exact hrun

theorem alive_take {l : List CoroId} {s : Sched} (h : ∀ co ∈ l, (s.coros co).dead = false)
    (arg : Arg) : ∀ e ∈ (l.take 1).map fun co => ((co, arg) : PendingEntry),
      (s.coros e.1).dead = false := by
  intro e he
  rcases List.mem_map.mp he with ⟨co, hco, rfl⟩
  exact h co (List.mem_of_mem_take hco)

theorem Simulated.call (h : OneToken sys) (hpc : Machine.callerPc sys.pc = true) {c : UserCall T}
    (hstep : sys.call c = some sys') : Simulated sys sys' := by
  cases c with
  | newCondVar =>
    obtain rfl := Option.some.inj hstep
    exact .refl rfl
  | newLatch =>
    obtain rfl := Option.some.inj hstep
    exact .refl rfl
  | newFifo =>
    obtain rfl := Option.some.inj hstep
    exact .refl rfl
  | launch co arg =>
    rcases call_launch h hstep with ⟨-, halive, rfl⟩
    refine .pushed hpc [(co, arg)] (fun e he => ?_) rfl
    obtain rfl := List.mem_singleton.mp he
    exact halive
  | exit =>
    obtain rfl := Option.some.inj hstep
    refine ⟨[.call .exit], Run.single ?_⟩
    unfold ofFun
    simp only [Machine.step, hpc, if_true]
    rfl
  | wakeOne k arg =>
    rcases Option.map_eq_some_iff.mp hstep with ⟨cv, hk, rfl⟩
    rcases CondVar.wakeOne_alive (h.alive_cv hk) arg with ⟨ret, hwake⟩
    rw [hwake]
    exact .pushed hpc _ (alive_take (h.alive_cv hk) arg) rfl
  | wakeAll k arg =>
    rcases Option.map_eq_some_iff.mp hstep with ⟨cv, hk, rfl⟩
    rcases CondVar.wakeOne_alive (h.alive_cv hk) arg with ⟨ret, hwake⟩
    rw [CondVar.wakeAll_eq_wakeOne, hwake]
    exact .pushed hpc _ (alive_take (h.alive_cv hk) arg) rfl
  | latchWakeAll k =>
    rcases Option.map_eq_some_iff.mp hstep with ⟨l, hk, rfl⟩
    rcases CondVar.wakeOne_alive (h.alive_latch hk) 0 with ⟨ret, hwake⟩
    rw [Latch.wakeAll, CondVar.wakeAll_eq_wakeOne, hwake]
    exact .pushed hpc _ (alive_take (h.alive_latch hk) 0) rfl
  | push k x =>
    rcases Option.map_eq_some_iff.mp hstep with ⟨f, hk, rfl⟩
    rcases CondVar.wakeOne_alive (h.alive_fifo hk) 0 with ⟨ret, hwake⟩
    rw [Fifo.push, hwake]
    exact .pushed hpc _ (alive_take (h.alive_fifo hk) 0) rfl

-- A turn of the loop of `pop` leaves the scheduler alone, or yields.
theorem Simulated.popTest {i : Nat} {co : CoroId} (hpc : sys.pc = .inside i)
    (hcur : sys.sched.current = some co) (k : Nat) : Simulated sys (sys.popTest co k i) := by
  unfold System.popTest
  cases hk : sys.fifos[k]? with
  | none => exact .refl rfl
  | some f =>
    dsimp only
    cases htest : f.test with
    | some r => exact .refl rfl
    | none =>
      rw [CondVar.wait_current hcur]
      refine ⟨[.yield co 0], ?_⟩
      rw [show sys.toMachine = ⟨sys.sched, .inside i⟩ by rw [← hpc]]
      exact Machine.run_yield co 0

theorem Simulated.block (h : OneToken sys) {i : Nat} {co : CoroId} (hpc : sys.pc = .inside i)
    (hr : sys.running = some co) {c : WaitCall} (hstep : sys.block co i c = some sys') :
    Simulated sys sys' := by
  have hcur := h.current hpc hr
  have hm : sys.toMachine = ⟨sys.sched, .inside i⟩ := by rw [← hpc]
  have hyield : ∀ sys', sys'.toMachine = ⟨sys.sched.yield co 0, .staging (i + 1)⟩ →
      Simulated sys sys' := by
    intro sys' hm'
    refine ⟨[.yield co 0], ?_⟩
    rw [hm, hm']
    exact Machine.run_yield co 0
  cases block_blocks hcur hstep with
  | sleep now msec =>
    refine ⟨[.call (.insertEvent (sleepDeadline now msec) co 0), .yield co 0], ?_⟩
    rw [hm]
    have hinsert : Run (ofFun Machine.step) ⟨sys.sched, .inside i⟩
        [.call (.insertEvent (sleepDeadline now msec) co 0)]
        ⟨sys.sched.insertEvent (sleepDeadline now msec) co 0, .inside i⟩ := Run.single rfl
    exact hinsert.trans (Machine.run_yield co 0)
  | waitFor dir fd => exact hyield _ rfl
  | cvWait hk => exact hyield _ rfl
  | latchDone hk hdone => exact .refl rfl
  | latchWait hk hdone => exact hyield _ rfl
  | pop k => exact .popTest hpc hcur k

theorem Simulated.trans {sys₁ : System T} (h : Simulated sys sys₁) (h₁ : Simulated sys₁ sys') :
    Simulated sys sys' := by
  rcases h with ⟨acts, hrun⟩
  rcases h₁ with ⟨acts₁, hrun₁⟩
  exact ⟨acts ++ acts₁, hrun.trans hrun₁⟩

theorem Simulated.next (h : OneToken sys) (rule : TopRule) (tv : Timeval) {i : Nat}
    (hpc : sys.pc = .staging i) :
    Simulated sys ((sys.withMachine (sys.toMachine.nextEntry rule tv i)).goOn i) := by
  have hfirst : Simulated sys (sys.withMachine (sys.toMachine.nextEntry rule tv i)) := by
    apply Simulated.single (b := .next rule tv)
    simp only [Machine.step, hpc]
  refine hfirst.trans ?_
  unfold System.goOn
  rcases h.nextEntry rule tv hpc with ⟨hnext, hin | hnone⟩
  · rcases hnext.inside i hin with ⟨co, hr, hcur⟩
    rw [hr]
    dsimp only
    cases (sys.withMachine (sys.toMachine.nextEntry rule tv i)).popping co with
    | none => exact .refl rfl
    | some k => exact .popTest hin hcur k
  · rw [show (sys.withMachine (sys.toMachine.nextEntry rule tv i)).running = none from hnone]
    exact .refl rfl

-- The poller schedules those it wakes, and returns.
theorem Simulated.pollReturn (h : OneToken sys) (hpc : sys.pc = .polling) {rule : TopRule}
    {tv : Timeval} {r : PollResponse} (hstep : sys.pollReturn rule tv r = some sys') :
    Simulated sys sys' := by
  rcases pollReturn_alive h hstep with ⟨p, woken, rfl, -, -, hwoken, -⟩
  have halive : ∀ e ∈ woken.map Wait.entry, (sys.sched.coros e.1).dead = false := by
    intro e he
    rcases List.mem_map.mp he with ⟨v, hv, rfl⟩
    exact hwoken v hv
  have hcaller : Machine.callerPc sys.pc = true := by
    rw [hpc]
    rfl
  rcases Machine.run_push hcaller _ halive with ⟨acts, hrun⟩
  refine ⟨acts ++ [.pollReturn rule tv], hrun.snoc ?_⟩
  unfold ofFun
  rw [hpc]
  rfl

theorem Simulated.step (h : OneToken sys) (hstep : sys.step a = some sys') :
    Simulated sys sys' := by
  cases a with
  | enter rule tv =>
    rcases Option.map_eq_some_iff.mp hstep with ⟨m, hm, rfl⟩
    exact .single hm
  | test =>
    rcases Option.map_eq_some_iff.mp hstep with ⟨m, hm, rfl⟩
    exact .single hm
  | next rule tv =>
    rcases step_next hstep with ⟨i, hpc, rfl⟩
    exact .next h rule tv hpc
  | finish =>
    rcases Option.map_eq_some_iff.mp hstep with ⟨m, hm, rfl⟩
    exact .single hm
  | pollReturn rule tv r =>
    rcases step_pollReturn hstep with ⟨hpc, hpoll⟩
    exact .pollReturn h hpc hpoll
  | call c =>
    rcases step_call hstep with ⟨hpc | ⟨i, hpc⟩, hcall⟩
    · exact .call h (by rw [hpc]; rfl) hcall
    · exact .call h (by rw [hpc]; rfl) hcall
  | block c =>
    rcases step_block hstep with ⟨i, co, hpc, hr, hblock⟩
    exact .block h hpc hr hblock

end System

end Coropp
