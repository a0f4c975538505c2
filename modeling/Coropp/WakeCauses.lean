import Coropp.WakeSteps

/-!
# Why a coroutine goes on

Over whole runs: a coroutine is resumed only after what it waits for in its last blocking call has
happened, during that call.
-/

namespace Coropp

open Transition

namespace System

variable {T : Type} {sys sys' : System T} {a : SysAct T}

/-! ## Who is inside `pop` -/

/-- The running coroutine is not inside `pop`, and whoever is, is there with an existing fifo. -/
structure Popping (sys : System T) : Prop where
  running : ∀ co, sys.running = some co → sys.popping co = none
  known : ∀ co k, sys.popping co = some k → k < sys.fifos.length

theorem Popping.keep (h : Popping sys) (hr : ∀ co, sys'.running = some co → sys.running = some co)
    (hp : sys'.popping = sys.popping) (hf : sys.fifos.length ≤ sys'.fifos.length) :
    Popping sys' where
  running := by
    rw [hp]
    exact fun co hco => h.running co (hr co hco)
  known := by
    rw [hp]
    exact fun co k hk => (h.known co k hk).trans_le hf

-- A turn of the loop of `pop`: it returns with an item, or it waits.
theorem popTest_cases {co : CoroId} {k i : Nat} (hcur : sys.sched.current = some co)
    (hk : k < sys.fifos.length) :
    ∃ fifos : List (Fifo T), fifos.length = sys.fifos.length ∧
      ((∃ pops, sys.popTest co k i =
          { sys with fifos := fifos, popping := Function.update sys.popping co none, pops := pops }) ∨
        ∃ s, sys.popTest co k i =
          { sys.yielded s i with
            fifos := fifos, popping := Function.update sys.popping co (some k) }) := by
  have hget : sys.fifos[k]? = some sys.fifos[k] := List.getElem?_eq_getElem hk
  cases htest : sys.fifos[k].test with
  | some r =>
    rcases r with ⟨x, f'⟩
    refine ⟨sys.fifos.set k f', List.length_set, .inl ⟨sys.pops ++ [(k, x)], ?_⟩⟩
    simp only [System.popTest, hget, htest]
  | none =>
    refine ⟨sys.fifos.set k { sys.fifos[k] with cv := ⟨sys.fifos[k].cv.waiting ++ [co]⟩ },
      List.length_set, .inr ⟨sys.sched.yield co 0, ?_⟩⟩
    simp only [System.popTest, hget, htest, CondVar.wait_current hcur]

theorem Popping.popTest {co : CoroId} {k i : Nat} (hr : sys.running = some co)
    (hcur : sys.sched.current = some co)
    (hknown : ∀ c j, sys.popping c = some j → j < sys.fifos.length) (hk : k < sys.fifos.length) :
    Popping (sys.popTest co k i) ∧ (sys.popTest co k i).launched = sys.launched ∧
      ∀ c j, (sys.popTest co k i).popping c = some j →
        sys.popping c = some j ∨ c = co ∧ j = k := by
  rcases popTest_cases (i := i) hcur hk with ⟨fifos, hlen, ⟨pops, heq⟩ | ⟨s, heq⟩⟩
  · rw [heq]
    refine ⟨⟨fun c hc => ?_, fun c j hj => ?_⟩, rfl, fun c j hj => ?_⟩
    · obtain rfl : co = c := Option.some.inj (hr.symm.trans hc)
      exact Function.update_self ..
    · rcases Maps.update_eq hj with ⟨-, hnone⟩ | ⟨-, hold⟩
      · cases hnone
      · exact (hknown c j hold).trans_eq hlen.symm
    · rcases Maps.update_eq hj with ⟨-, hnone⟩ | ⟨-, hold⟩
      · cases hnone
      · exact .inl hold
  · rw [heq]
    refine ⟨⟨fun c hc => (by cases hc), fun c j hj => ?_⟩, rfl, fun c j hj => ?_⟩
    · rcases Maps.update_eq hj with ⟨-, hnew⟩ | ⟨-, hold⟩
      · rw [← Option.some.inj hnew]
        exact hk.trans_eq hlen.symm
      · exact (hknown c j hold).trans_eq hlen.symm
    · rcases Maps.update_eq hj with ⟨rfl, hnew⟩ | ⟨-, hold⟩
      · exact .inr ⟨rfl, (Option.some.inj hnew).symm⟩
      · exact .inl hold

theorem loopHead_running (rule : TopRule) (tv : Timeval) (s : Sched) :
    (Machine.loopHead rule tv s).running = none := by
  unfold Machine.loopHead Machine.resolve
  split
  · rfl
  · cases s.scheduleEvents rule tv <;> rfl

theorem call_frame (h : OneToken sys) {c : UserCall T} (hstep : sys.call c = some sys') :
    sys'.running = sys.running ∧ sys'.popping = sys.popping ∧
      sys.fifos.length ≤ sys'.fifos.length ∧
      ∀ co, sys.launched co = true → sys'.launched co = true := by
  cases c with
  | newCondVar =>
    obtain rfl := Option.some.inj hstep
    exact ⟨rfl, rfl, Nat.le_refl _, fun _ hl => hl⟩
  | newLatch =>
    obtain rfl := Option.some.inj hstep
    exact ⟨rfl, rfl, Nat.le_refl _, fun _ hl => hl⟩
  | newFifo =>
    obtain rfl := Option.some.inj hstep
    exact ⟨rfl, rfl, by simp, fun _ hl => hl⟩
  | launch co arg =>
    rcases call_launch h hstep with ⟨-, -, rfl⟩
    refine ⟨Machine.running_congr sys.pc rfl, rfl, Nat.le_refl _, fun c hl => ?_⟩
    change Function.update sys.launched co true c = true
    by_cases hc : c = co
    · rw [hc, Function.update_self]
    · rwa [Function.update_of_ne hc]
  | exit =>
    obtain rfl := Option.some.inj hstep
    exact ⟨rfl, rfl, Nat.le_refl _, fun _ hl => hl⟩
  | wakeOne k arg =>
    rcases Option.map_eq_some_iff.mp hstep with ⟨cv, hk, rfl⟩
    rcases CondVar.wakeOne_alive (h.alive_cv hk) arg with ⟨ret, hwake⟩
    rw [hwake]
    exact ⟨rfl, rfl, Nat.le_refl _, fun _ hl => hl⟩
  | wakeAll k arg =>
    rcases Option.map_eq_some_iff.mp hstep with ⟨cv, hk, rfl⟩
    rcases CondVar.wakeOne_alive (h.alive_cv hk) arg with ⟨ret, hwake⟩
    rw [CondVar.wakeAll_eq_wakeOne, hwake]
    exact ⟨rfl, rfl, Nat.le_refl _, fun _ hl => hl⟩
  | latchWakeAll k =>
    rcases Option.map_eq_some_iff.mp hstep with ⟨l, hk, rfl⟩
    rcases CondVar.wakeOne_alive (h.alive_latch hk) 0 with ⟨ret, hwake⟩
    rw [Latch.wakeAll, CondVar.wakeAll_eq_wakeOne, hwake]
    exact ⟨rfl, rfl, Nat.le_refl _, fun _ hl => hl⟩
  | push k x =>
    rcases Option.map_eq_some_iff.mp hstep with ⟨f, hk, rfl⟩
    rcases CondVar.wakeOne_alive (h.alive_fifo hk) 0 with ⟨ret, hwake⟩
    rw [Fifo.push, hwake]
    exact ⟨rfl, rfl, by simp, fun _ hl => hl⟩

-- Blocking in something else than `pop` leaves who is inside `pop`.
theorem block_frame (h : OneToken sys) {i : Nat} {co : CoroId} (hpc : sys.pc = .inside i)
    (hr : sys.running = some co) {c : WaitCall} (hstep : sys.block co i c = some sys') :
    (∃ k, c = .pop k) ∨
      (sys' = sys ∨ sys'.running = none) ∧ sys'.popping = sys.popping ∧
        sys'.fifos.length = sys.fifos.length ∧ sys'.launched = sys.launched := by
  have hcur := h.current hpc hr
  cases block_blocks hcur hstep with
  | sleep now msec => exact .inr ⟨.inr rfl, rfl, rfl, rfl⟩
  | waitFor dir fd => exact .inr ⟨.inr rfl, rfl, rfl, rfl⟩
  | cvWait hk => exact .inr ⟨.inr rfl, rfl, rfl, rfl⟩
  | latchDone hk hdone => exact .inr ⟨.inl rfl, rfl, rfl, rfl⟩
  | latchWait hk hdone => exact .inr ⟨.inr rfl, rfl, rfl, rfl⟩
  | pop k => exact .inl ⟨k, rfl⟩

/-- What a step does to the callers of `pop` and to those who have been launched. -/
structure Follows (sys : System T) (a : SysAct T) (sys' : System T) : Prop where
  popping : Popping sys'
  inPop : ∀ c j, sys'.popping c = some j →
    sys.popping c = some j ∨ a = .block (.pop j) ∧ sys.running = some c
  launched : ∀ c, sys.launched c = true → sys'.launched c = true

-- Nobody has control after the step, and it is not one of `pop`.
theorem Popping.quiet (h : Popping sys) (hr : sys'.running = none)
    (hp : sys'.popping = sys.popping) (hf : sys.fifos.length ≤ sys'.fifos.length)
    (hl : sys'.launched = sys.launched) : Follows sys a sys' where
  popping := by
    apply h.keep _ hp hf
    intro co hco
    rw [hr] at hco
    cases hco
  inPop := fun c j hj => .inl (by rwa [hp] at hj)
  launched := fun c hc => by rwa [hl]

theorem Popping.next (h : Popping sys) (ht : OneToken sys) (rule : TopRule) (tv : Timeval) {i : Nat}
    (hpc : sys.pc = .staging i) :
    Follows sys a ((sys.withMachine (sys.toMachine.nextEntry rule tv i)).goOn i) := by
  unfold System.goOn
  rcases ht.nextEntry rule tv hpc with ⟨hnext, hin | hnone⟩
  · rcases hnext.inside i hin with ⟨co, hr, hcur⟩
    rw [hr]
    dsimp only
    cases hpop : (sys.withMachine (sys.toMachine.nextEntry rule tv i)).popping co with
    | none =>
      refine ⟨⟨fun c hc => ?_, h.known⟩, fun c j hj => .inl hj, fun c hl => hl⟩
      obtain rfl : co = c := Option.some.inj (hr.symm.trans hc)
      exact hpop
    | some k =>
      rcases Popping.popTest (i := i) hr hcur h.known (h.known co k hpop) with ⟨hp, hl, hold⟩
      refine ⟨hp, fun c j hj => .inl ?_, fun c hc => by rw [hl]; exact hc⟩
      rcases hold c j hj with hj | ⟨rfl, rfl⟩
      · exact hj
      · exact hpop
  · rw [show (sys.withMachine (sys.toMachine.nextEntry rule tv i)).running = none from hnone]
    exact h.quiet hnone rfl (Nat.le_refl _) rfl

theorem Popping.block (h : Popping sys) (ht : OneToken sys) {i : Nat} {co : CoroId}
    (hpc : sys.pc = .inside i) (hr : sys.running = some co) {c : WaitCall}
    (hstep : sys.block co i c = some sys') : Follows sys (.block c) sys' := by
  rcases block_frame ht hpc hr hstep with ⟨k, rfl⟩ | ⟨rfl | hnone, hp, hf, hl⟩
  · obtain rfl := Option.some.inj hstep
    by_cases hk : k < sys.fifos.length
    · rcases Popping.popTest (i := i) hr (ht.current hpc hr) h.known hk with ⟨hp, hl, hold⟩
      refine ⟨hp, fun c j hj => ?_, fun c hc => by rwa [hl]⟩
      rcases hold c j hj with hj | ⟨rfl, rfl⟩
      · exact .inl hj
      · exact .inr ⟨rfl, hr⟩
    · have hsame : sys.popTest co k i = sys := by
        unfold System.popTest
        rw [List.getElem?_eq_none (Nat.le_of_not_lt hk)]
      rw [hsame]
      exact ⟨h, fun c j hj => .inl hj, fun c hl => hl⟩
  · exact ⟨h, fun c j hj => .inl hj, fun c hl => hl⟩
  · exact h.quiet hnone hp hf.ge hl

theorem Popping.step (h : Popping sys) (ht : OneToken sys) (hstep : sys.step a = some sys') :
    Follows sys a sys' := by
  cases a with
  | enter rule tv =>
    rcases step_enter hstep with ⟨-, rfl⟩
    exact h.quiet (loopHead_running rule tv sys.sched) rfl (Nat.le_refl _) rfl
  | test =>
    rcases step_test hstep with ⟨m, hm, rfl⟩
    rcases Machine.step_test hm with ⟨-, ⟨rfl, -⟩ | ⟨rfl, -⟩ | ⟨rfl, -⟩⟩
    · exact h.quiet rfl rfl (Nat.le_refl _) rfl
    · exact h.quiet rfl rfl (Nat.le_refl _) rfl
    · exact h.quiet rfl rfl (Nat.le_refl _) rfl
  | next rule tv =>
    rcases step_next hstep with ⟨i, hpc, rfl⟩
    exact h.next ht rule tv hpc
  | finish =>
    rcases step_finish hstep with ⟨i, co, -, -, rfl⟩
    exact h.quiet rfl rfl (Nat.le_refl _) rfl
  | pollReturn rule tv r =>
    rcases step_pollReturn hstep with ⟨-, hpoll⟩
    unfold System.pollReturn at hpoll
    split at hpoll
    · obtain rfl := Option.some.inj hpoll
      exact h.quiet (loopHead_running rule tv _) rfl (Nat.le_refl _) rfl
    · obtain rfl := Option.some.inj hpoll
      exact h.quiet rfl rfl (Nat.le_refl _) rfl
    · cases hpoll
  | call c =>
    rcases call_frame ht (step_call hstep).2 with ⟨hr, hp, hf, hl⟩
    refine ⟨h.keep (fun co hco => hr ▸ hco) hp hf, fun c j hj => .inl ?_, hl⟩
    rwa [hp] at hj
  | block c =>
    rcases step_block hstep with ⟨i, co, hpc, hr, hblock⟩
    exact h.block ht hpc hr hblock

theorem OneToken.not_running (h : OneToken sys) {co : CoroId} (hco : 0 < sys.tokens co) :
    sys.running ≠ some co := by
  intro hr
  rw [(h.alive_running hr).2.2] at hco
  exact Nat.lt_irrefl 0 hco

end System

/-! ## Runs with their history -/

/-- `waits` is a history variable: what each coroutine waited for in the last of its calls that may
    block. -/
structure WaitLog (T : Type) extends System T where
  waits : CoroId → Option Awaited := fun _ => none

namespace WaitLog

variable {T : Type}

def note (w : WaitLog T) : SysAct T → CoroId → Option Awaited
  | .block c =>
    match w.running with
    | some co => Function.update w.waits co (some c.awaited)
    | none => w.waits
  | _ => w.waits

def step (w : WaitLog T) (a : SysAct T) : Option (WaitLog T) :=
  (w.toSystem.step a).map fun sys => ⟨sys, w.note a⟩

def Runs (pollSet : Nat → Pollfd) (size : Nat) (acts : List (SysAct T)) (w : WaitLog T) : Prop :=
  Run (ofFun step) { System.init pollSet size with } acts w

/-- The invariant: who has an entry in a container waits for what belongs to it. -/
structure Logged (w : WaitLog T) : Prop where
  once : w.OneToken
  popping : w.Popping
  args : ∀ e ∈ w.sched.events, e.args = 0
  parked : ∀ co g, w.Parked co g → w.waits co = some g
  inPop : ∀ co k, w.popping co = some k → w.waits co = some (.fifo k)
  fresh : ∀ co, w.launched co = false → w.waits co = none

variable {w w' : WaitLog T} {a : SysAct T}

theorem note_of_ne {co : CoroId} (h : w.running ≠ some co) : w.note a co = w.waits co := by
  cases a with
  | block c =>
    simp only [note]
    cases hr : w.running with
    | none => rfl
    | some r =>
      have hne : co ≠ r := by
        rintro rfl
        exact h hr
      exact Function.update_of_ne hne ..
  | _ => rfl

theorem note_block {co : CoroId} (h : w.running = some co) (c : WaitCall) :
    w.note (.block c) co = some c.awaited := by
  unfold note
  simp only [h, Function.update_self]

theorem Logged.step (h : Logged w) (hstep : w.step a = some w') : Logged w' := by
  rcases Option.map_eq_some_iff.mp hstep with ⟨sys', hs, rfl⟩
  have hexp := System.Explained.step h.once h.args hs
  have hfol := h.popping.step h.once hs
  refine ⟨h.once.step hs, hfol.popping, fun e he => ?_, fun co g hp => ?_, fun co k hk => ?_,
    fun co hl => ?_⟩
  · exact (hexp.timers e he).elim (h.args e) id
  · rcases hexp.parked co g hp with hold | ⟨c, rfl, hr, rfl⟩ | ⟨rule, tv, k, rfl, hpop, rfl⟩
    · exact (note_of_ne (h.once.not_running (System.parked_tokens hold))).trans (h.parked co g hold)
    · exact note_block hr c
    · exact h.inPop co k hpop
  · rcases hfol.inPop co k hk with hold | ⟨rfl, hr⟩
    · have hne : w.running ≠ some co := by
        intro hr
        rw [h.popping.running co hr] at hold
        cases hold
      exact (note_of_ne hne).trans (h.inPop co k hold)
    · exact note_block hr (.pop k)
  · have hold : w.launched co = false := by
      by_contra hl'
      rw [hfol.launched co (by simpa using hl')] at hl
      cases hl
    have hne : w.running ≠ some co := by
      intro hr
      rw [(h.once.alive_running hr).2.1] at hold
      cases hold
    exact (note_of_ne hne).trans (h.fresh co hold)

end WaitLog

end Coropp
