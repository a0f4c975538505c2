import Coropp.PrivateStacks
import Coropp.WaitSets
import Coropp.Sync

/-!
# Waiting from the main context

Waiting for a descriptor, in a condition variable, for a latch and for an item is refused in the
main context, which is told by `coro::current ()`: `_current` is 0 until a coroutine is resumed.
No one sets it back, so after that the main context passes for the coroutine resumed last.
-/

namespace Coropp

open Transition

/-- What a call that has to wait throws in the main context. -/
inductive MainError where
  /-- `Yield_From_Main`. -/
  | yieldFromMain
  /-- A `const char *`. -/
  | text (s : String)
deriving DecidableEq, Repr

/-- The calls that may wait, by descriptor or by the number of the object. -/
inductive MayWait where
  | waitFor (dir : Direction) (fd : Fd)
  | cvWait (k : Nat)
  | latchWait (k : Nat)
  | pop (k : Nat)
deriving DecidableEq, Repr

def MayWait.error : MayWait → MainError
  | .waitFor _ _ => .yieldFromMain
  | .cvWait _ | .latchWait _ | .pop _ => .text "wait() from main"

/-- How such a call goes on: it throws, it returns without having waited, or it switches to the
    context that `_main` holds.  Each leaves a state. -/
inductive WaitResult (σ : Type) where
  | threw (e : MainError) (s : σ)
  | returned (s : σ)
  | switched (s : σ)

def WaitResult.state {σ : Type} : WaitResult σ → σ
  | threw _ s | returned s | switched s => s

/-- The machine with its saved states, the wait sets of a map-based poller, and the wait queues. -/
structure MainWorld (W M T : Type) extends Shared W M where
  waits : WaitSets := {}
  cvs : List CondVar := []
  latches : List Latch := []
  fifos : List (Fifo T) := []

inductive MainAct (W M T : Type) where
  /-- A resume, the switch back, and what runs without waiting. -/
  | machine (l : Label W M)
  /-- A call in the main context, with its registers at that call. -/
  | mainWait (c : MayWait) (caller : Cpu W)
  /-- A call by the coroutine in control, which is to go on at `ra`. -/
  | coroWait (c : MayWait) (ra : W)
  /-- Anything else that the program or the poller does with the wait sets and queues. -/
  | others (waits : WaitSets) (cvs : List CondVar) (latches : List Latch) (fifos : List (Fifo T))

def MainAct.isResume {W M T : Type} : MainAct W M T → Bool
  | .machine (.resume _ _) => true
  | _ => false

theorem isResume_true {W M T : Type} {a : MainAct W M T} (h : a.isResume = true) :
    ∃ co caller, a = .machine (.resume co caller) := by
  cases a with
  | machine l =>
    cases l with
    | resume co caller => exact ⟨co, caller, rfl⟩
    | _ => cases h
  | _ => cases h

-- Between two resumes, or just after one.
def Control.isMain : Control → Bool
  | .inside _ => false
  | .idle | .returned _ => true

namespace MainWorld

variable {W M T : Type}

/-- `__swap (&_main->_state, &_current->_state)` of `yield`, called with the registers `cpu`. -/
def switchOut (w : MainWorld W M T) (me : CoroId) (cpu : Cpu W) : MainWorld W M T :=
  { w with toShared := ({ w.toShared with cpu := cpu } : Shared W M).swapOut me me cpu.rip }

/-- `condition_variable::wait` of `cv`, which `store` writes back. -/
def waitIn (w : MainWorld W M T) (cpu : Cpu W) (cv : CondVar) (store : CondVar → MainWorld W M T) :
    WaitResult (MainWorld W M T) :=
  match w.current with
  | none => .threw (.text "wait() from main") w
  | some me => .switched ((store ⟨cv.waiting ++ [me]⟩).switchOut me cpu)

def call (w : MainWorld W M T) (cpu : Cpu W) : MayWait → Option (WaitResult (MainWorld W M T))
  | .waitFor dir fd =>
    match w.current with
    | none => some (.threw .yieldFromMain w)
    | some me =>
      some (.switched ({ w with waits := w.waits.setWaitFor dir fd me }.switchOut me cpu))
  | .cvWait k =>
    (w.cvs[k]?).map fun cv => w.waitIn cpu cv fun cv => { w with cvs := w.cvs.set k cv }
  | .latchWait k =>
    (w.latches[k]?).map fun l =>
      if l.done then .returned w
      else w.waitIn cpu l.cv fun cv => { w with latches := w.latches.set k { l with cv := cv } }
  | .pop k =>
    (w.fifos[k]?).map fun f =>
      match f.test with
      | some (_, f') => .returned { w with fifos := w.fifos.set k f' }
      | none => w.waitIn cpu f.cv fun cv => { w with fifos := w.fifos.set k { f with cv := cv } }

def step (L : Layout W) (prog : Program W M) (w : MainWorld W M T) :
    MainAct W M T → Option (MainWorld W M T)
  | .machine l => (w.toShared.step L prog l).map fun s => { w with toShared := s }
  | .mainWait c caller =>
    if w.control.isMain then (w.call caller c).map WaitResult.state else none
  | .coroWait c ra =>
    if w.control.isMain then none
    else (w.call { w.cpu with rip := ra } c).map WaitResult.state
  | .others waits cvs latches fifos =>
    some { w with waits := waits, cvs := cvs, latches := latches, fifos := fifos }

/-- The call would have to wait: there is no item in the fifo, or the latch is not done. -/
def Waits (w : MainWorld W M T) : MayWait → Prop
  | .waitFor _ _ => True
  | .cvWait _ => True
  | .latchWait k => ∀ l, w.latches[k]? = some l → l.done = false
  | .pop k => ∀ f, w.fifos[k]? = some f → f.q = []

/-- `coro::current ()` is 0, and a call that would have to wait throws and changes nothing. -/
def Recognised (w : MainWorld W M T) : Prop :=
  w.current = none ∧
    ∀ c caller r, w.Waits c → w.call caller c = some r → r = .threw c.error w

/-! ## Where the guards look -/

section Guards

variable {w : MainWorld W M T}

theorem waitIn_main (h : w.current = none) (cpu : Cpu W) (cv : CondVar)
    (store : CondVar → MainWorld W M T) :
    w.waitIn cpu cv store = .threw (.text "wait() from main") w := by
  unfold waitIn
  rw [h]

theorem call_main (h : w.current = none) {c : MayWait} {cpu : Cpu W}
    {r : WaitResult (MainWorld W M T)} (hwaits : w.Waits c) (hcall : w.call cpu c = some r) :
    r = .threw c.error w := by
  cases c with
  | waitFor dir fd =>
    simp only [call, h] at hcall
    exact (Option.some.inj hcall).symm
  | cvWait k =>
    rcases Option.map_eq_some_iff.mp hcall with ⟨cv, -, rfl⟩
    exact waitIn_main h _ _ _
  | latchWait k =>
    rcases Option.map_eq_some_iff.mp hcall with ⟨l, hl, rfl⟩
    rw [if_neg (by rw [hwaits l hl]; decide)]
    exact waitIn_main h _ _ _
  | pop k =>
    rcases Option.map_eq_some_iff.mp hcall with ⟨f, hf, rfl⟩
    have htest : f.test = none := by
      unfold Fifo.test
      rw [hwaits f hf]
    rw [htest]
    exact waitIn_main h _ _ _

theorem recognised_iff_current : w.Recognised ↔ w.current = none :=
  ⟨fun h => h.1, fun h => ⟨h, fun _ _ _ hwaits hcall => call_main h hwaits hcall⟩⟩

theorem waitIn_current (cpu : Cpu W) (cv : CondVar) {store : CondVar → MainWorld W M T}
    (hstore : ∀ cv, (store cv).toShared = w.toShared) :
    (w.waitIn cpu cv store).state.current = w.current ∧
      (w.current = none → (w.waitIn cpu cv store).state.toShared = w.toShared) := by
  cases hcurrent : w.current with
  | none =>
    rw [waitIn_main hcurrent]
    exact ⟨hcurrent, fun _ => rfl⟩
  | some me =>
    refine ⟨?_, fun h => nomatch h⟩
    unfold waitIn
    rw [hcurrent]
    show (store ⟨cv.waiting ++ [me]⟩).toShared.current = some me
    rw [hstore]
    exact hcurrent

-- A call leaves `_current` alone, and where that is 0 the machine.
theorem call_current {c : MayWait} {cpu : Cpu W} {r : WaitResult (MainWorld W M T)}
    (hcall : w.call cpu c = some r) :
    r.state.current = w.current ∧ (w.current = none → r.state.toShared = w.toShared) := by
  cases c with
  | waitFor dir fd =>
    simp only [call] at hcall
    split at hcall
    · rename_i hcurrent
      obtain rfl := Option.some.inj hcall
      exact ⟨rfl, fun _ => rfl⟩
    · rename_i me hcurrent
      obtain rfl := Option.some.inj hcall
      exact ⟨rfl, fun h => nomatch hcurrent.symm.trans h⟩
  | cvWait k =>
    rcases Option.map_eq_some_iff.mp hcall with ⟨cv, -, rfl⟩
    exact waitIn_current _ _ fun _ => rfl
  | latchWait k =>
    rcases Option.map_eq_some_iff.mp hcall with ⟨l, -, rfl⟩
    split
    · exact ⟨rfl, fun _ => rfl⟩
    · exact waitIn_current _ _ fun _ => rfl
  | pop k =>
    rcases Option.map_eq_some_iff.mp hcall with ⟨f, -, rfl⟩
    split
    · exact ⟨rfl, fun _ => rfl⟩
    · exact waitIn_current _ _ fun _ => rfl

end Guards

/-! ## Runs -/

/-- No coroutine has been resumed, so all are alive. -/
def Untouched (s : Shared W M) : Prop :=
  s.current = none ∧ ∀ co, (s.objects co).dead = false

-- The label of a resume that is made: `Dead_Coro` leaves everything as it is.
theorem shared_resume {L : Layout W} {prog : Program W M} {s s' : Shared W M} {co : CoroId}
    {caller : Cpu W} (hstep : s.step L prog (.resume co caller) = some s') :
    (s' = s ∧ (s.objects co).dead = true) ∨ s'.current = some co := by
  simp only [Shared.step] at hstep
  split at hstep
  · split at hstep
    next hdead => exact .inl ⟨(Option.some.inj hstep).symm, hdead⟩
    next =>
      split at hstep
      next => cases hstep
      next =>
        obtain rfl := Option.some.inj hstep
        exact .inr (resume_rest L s co caller).2.2.1
  · cases hstep

-- A coroutine in control has been named, and keeps the name.
theorem shared_run {L : Layout W} {prog : Program W M} {s s' : Shared W M}
    (hstep : s.step L prog .run = some s') : s.current ≠ none ∧ s'.current = s.current := by
  simp only [Shared.step] at hstep
  split at hstep
  next co cur hcontrol hcurrent =>
    refine ⟨by simp [hcurrent], ?_⟩
    split at hstep
    · obtain rfl := Option.some.inj (Option.ite_none_right_eq_some.mp hstep).2
      rfl
    · obtain rfl := Option.some.inj (Option.ite_none_right_eq_some.mp hstep).2
      rfl
    · obtain rfl := Option.some.inj (Option.ite_none_right_eq_some.mp hstep).2
      rfl
  next => cases hstep

theorem preserve_dead (L : Layout W) (s : Shared W M) (co c : CoroId) :
    ((s.preserve L co).objects c).dead = (s.objects c).dead := by
  unfold Shared.preserve
  dsimp only
  by_cases hc : c = co
  · rw [hc, setObject_self]
  · rw [setObject_of_ne s _ hc]

-- The other steps leave `_current` alone, and a coroutine dies only after it has been named.
theorem shared_step {L : Layout W} {prog : Program W M} {s s' : Shared W M} {l : Label W M}
    (hstep : s.step L prog l = some s') (hl : ∀ co caller, l ≠ .resume co caller) :
    s'.current = s.current ∧
      (s.current = none → ∀ co, (s'.objects co).dead = (s.objects co).dead) := by
  cases l with
  | main mem =>
    simp only [Shared.step] at hstep
    split at hstep
    · obtain rfl := Option.some.inj hstep
      exact ⟨rfl, fun _ _ => rfl⟩
    · cases hstep
  | resume co caller => exact absurd rfl (hl co caller)
  | run =>
    have hrun := shared_run hstep
    exact ⟨hrun.2, fun hnone => absurd hnone hrun.1⟩
  | preserve =>
    simp only [Shared.step] at hstep
    split at hstep
    next co hcontrol =>
      split at hstep
      · obtain rfl := Option.some.inj hstep
        exact ⟨rfl, fun _ _ => rfl⟩
      · obtain rfl := Option.some.inj hstep
        exact ⟨rfl, fun _ c => preserve_dead L s co c⟩
    next => cases hstep

section Steps

variable {L : Layout W} {prog : Program W M} {w w' : MainWorld W M T} {a : MainAct W M T}

-- What a step that is no resume does to `_current` and the dead.
theorem step_other (hstep : w.step L prog a = some w') (ha : a.isResume = false) :
    w'.current = w.current ∧
      (w.current = none → ∀ co, (w'.objects co).dead = (w.objects co).dead) := by
  cases a with
  | machine l =>
    rcases Option.map_eq_some_iff.mp hstep with ⟨s, hs, rfl⟩
    apply shared_step hs
    rintro co caller rfl
    cases ha
  | mainWait c caller =>
    rcases Option.map_eq_some_iff.mp (Option.ite_none_right_eq_some.mp hstep).2 with ⟨r, hr, rfl⟩
    have hcall := call_current hr
    refine ⟨hcall.1, fun hnone co => ?_⟩
    rw [hcall.2 hnone]
  | coroWait c ra =>
    rcases Option.map_eq_some_iff.mp (Option.ite_none_left_eq_some.mp hstep).2 with ⟨r, hr, rfl⟩
    have hcall := call_current hr
    refine ⟨hcall.1, fun hnone co => ?_⟩
    rw [hcall.2 hnone]
  | others waits cvs latches fifos =>
    obtain rfl := Option.some.inj hstep
    exact ⟨rfl, fun _ _ => rfl⟩

theorem step_named (hstep : w.step L prog a = some w') (h : w.current ≠ none) :
    w'.current ≠ none := by
  cases ha : a.isResume with
  | false =>
    rw [(step_other hstep ha).1]
    exact h
  | true =>
    rcases isResume_true ha with ⟨co, caller, rfl⟩
    rcases Option.map_eq_some_iff.mp hstep with ⟨s, hs, rfl⟩
    rcases shared_resume hs with ⟨rfl, -⟩ | hcurrent
    · exact h
    · show s.current ≠ none
      rw [hcurrent]
      exact Option.some_ne_none co

-- The first resume.
theorem Untouched.resume (hstep : w.step L prog a = some w') (h : Untouched w.toShared)
    (ha : a.isResume = true) : w'.current ≠ none := by
  rcases isResume_true ha with ⟨co, caller, rfl⟩
  rcases Option.map_eq_some_iff.mp hstep with ⟨s, hs, rfl⟩
  rcases shared_resume hs with ⟨-, hdead⟩ | hcurrent
  · rw [h.2 co] at hdead
    cases hdead
  · show s.current ≠ none
    rw [hcurrent]
    exact Option.some_ne_none co

theorem Untouched.other (hstep : w.step L prog a = some w') (h : Untouched w.toShared)
    (ha : a.isResume = false) : Untouched w'.toShared := by
  have hother := step_other hstep ha
  exact ⟨hother.1.trans h.1, fun co => (hother.2 h.1 co).trans (h.2 co)⟩

end Steps

def Runs (L : Layout W) (prog : Program W M) (s : Shared W M) (acts : List (MainAct W M T))
    (w : MainWorld W M T) : Prop :=
  Run (ofFun (step L prog)) { toShared := s } acts w

theorem runs_current {L : Layout W} {prog : Program W M} {s : Shared W M} (hs : Untouched s)
    {acts : List (MainAct W M T)} {w : MainWorld W M T} (run : Runs L prog s acts w) :
    ((∃ a ∈ acts, a.isResume = true) ∧ w.current ≠ none) ∨
      (∀ a ∈ acts, a.isResume = false) ∧ Untouched w.toShared := by
  induction run with
  | nil => exact .inr ⟨fun _ ha => absurd ha List.not_mem_nil, hs⟩
  | @snoc acts t u a run hstep ih =>
    rcases ih with ⟨⟨b, hb, hres⟩, hnamed⟩ | ⟨hnone, hun⟩
    · exact .inl ⟨⟨b, List.mem_append_left _ hb, hres⟩, step_named hstep hnamed⟩
    · cases ha : a.isResume with
      | true => exact .inl ⟨⟨a, List.mem_append_right _ (.head _), ha⟩, hun.resume hstep ha⟩
      | false =>
        refine .inr ⟨fun b hb => ?_, hun.other hstep ha⟩
        rcases List.mem_append.mp hb with hb | hb
        · exact hnone b hb
        · obtain rfl := List.mem_singleton.mp hb
          exact ha

/-- Wherever control is, and so in the main context too: that context is recognised if and only if
    no coroutine has been resumed so far. -/
theorem recognised_iff (L : Layout W) (prog : Program W M) (regs : CoroId → MachineState W)
    (cpu : Cpu W) (stack : Nat → W) (main : MachineState W) (mem : M)
    {acts : List (MainAct W M T)} {w : MainWorld W M T}
    (run : Runs L prog (Shared.init regs cpu stack main mem) acts w) :
    w.Recognised ↔ ∀ a ∈ acts, a.isResume = false := by
  have hinit : Untouched (Shared.init regs cpu stack main mem) := ⟨rfl, fun _ => rfl⟩
  rw [recognised_iff_current]
  rcases runs_current hinit run with ⟨⟨a, ha, hres⟩, hnamed⟩ | ⟨hnone, hun⟩
  · refine ⟨fun h => absurd h hnamed, fun hall => ?_⟩
    rw [hall a ha] at hres
    cases hres
  · exact ⟨fun _ => hnone, fun _ => hun.1⟩

-- Coroutine 1 is resumed and yields at once; the main context has control again.
def resumedOnce : List (MainAct Nat Unit Nat) :=
  [.others {} [{}] [] [], .machine (.resume 1 mainCpu), .machine .run, .machine .preserve]

def YieldsAtOnce (acts : List (MainAct Nat Unit Nat)) (w : MainWorld Nat Unit Nat) : Prop :=
  Runs smallLayout (fun _ _ => .yield 102)
    (Shared.init (fun _ => zeroState) mainCpu (fun _ => 9) zeroState ()) acts w

theorem recognised_iff_resumedOnce :
    (∃ w, YieldsAtOnce (resumedOnce.take 1) w ∧ w.Recognised) ∧
      ∃ w, YieldsAtOnce resumedOnce w ∧ w.control = .idle ∧ ¬w.Recognised := by
  constructor
  · have hrun : YieldsAtOnce (resumedOnce.take 1) _ := run_of_exec rfl
    exact ⟨_, hrun, (recognised_iff _ _ _ _ _ _ _ hrun).mpr (by decide)⟩
  · have hrun : YieldsAtOnce resumedOnce _ := run_of_exec rfl
    refine ⟨_, hrun, rfl, fun h => ?_⟩
    exact absurd ((recognised_iff _ _ _ _ _ _ _ hrun).mp h) (by decide)

/-- The main context waits for descriptor 5: it is registered as coroutine 1, and the registers
    saved for that one become those of the main context. -/
theorem main_overwrites :
    ∃ w w', YieldsAtOnce resumedOnce w ∧ w.control = .idle ∧ w.current = some 1 ∧
      w.call mainCpu (.waitFor .read 5) = some (.switched w') ∧
      w'.waits.Registered ⟨.read, 5, 1⟩ ∧
      (w.objects 1).state.stackPointer = 26 ∧ (w'.objects 1).state.stackPointer = 89 ∧
      ¬w.Recognised := by
  have hrun : YieldsAtOnce resumedOnce _ := run_of_exec rfl
  refine ⟨_, _, hrun, rfl, rfl, rfl, rfl, rfl, rfl, fun h => ?_⟩
  exact absurd h.1 (Option.some_ne_none 1)

end MainWorld

end Coropp
