import Coropp.Descriptors
import Coropp.EventPoll
import Coropp.EventSelect

/-!
# Wait sets and closed descriptors

Coroutines wait on the descriptors of their objects, with either of the map-based pollers, while
objects are made, closed and destroyed.  Neither `coro_file::close` nor the destructor tells the
poller, so a wait set may go on naming a descriptor that is closed.
-/

namespace Coropp

open Transition

inductive Poller where
  | pollPoller (p : PollPoller)
  | selectPoller (p : SelectPoller)

/-- The constructors: `_poll_set` is a new array of `size` slots, with whatever is in them. -/
inductive NewPoller where
  | pollPoller (size : Nat) (pollSet : Nat → Pollfd)
  | selectPoller

/-- What `::poll` or `select` answers. -/
inductive KernelAnswer where
  | poll (r : PollResponse)
  | select (timeoutUsec : Int) (r : SelectResponse) (turns : Nat)

namespace Poller

def create : NewPoller → Poller
  | .pollPoller size pollSet => pollPoller { pollSet := pollSet, size := size }
  | .selectPoller => selectPoller {}

def waits : Poller → WaitSets
  | pollPoller p => p.toWaitSets
  | selectPoller p => p.toWaitSets

def setWaitFor (p : Poller) (dir : Direction) (fd : Fd) (c : CoroId) : Poller :=
  match p with
  | pollPoller p => pollPoller { p with toWaitSets := p.setWaitFor dir fd c }
  | selectPoller p => selectPoller ⟨p.setWaitFor dir fd c⟩

/-- The poller after a `poll`, the scheduler, and whether the iterators are still valid. -/
def poll (p : Poller) (s : Sched) (k : KernelAnswer) : Option (Poller × Sched × Bool) :=
  match p, k with
  | pollPoller p, .poll r =>
    (p.poll s r).map fun out => (pollPoller out.state.1, out.state.2, true)
  | selectPoller p, .select timeoutUsec r turns =>
    (p.poll s timeoutUsec r turns).map fun e =>
      (selectPoller ⟨e.state.1⟩, e.state.2,
        match e with
        | .ended _ => true
        | .erasedIterator _ _ => false)
  | _, _ => none

theorem waits_setWaitFor (p : Poller) (dir : Direction) (fd : Fd) (c : CoroId) :
    (p.setWaitFor dir fd c).waits = p.waits.setWaitFor dir fd c := by
  cases p <;> rfl

-- A poll registers nobody.
theorem poll_registered {p p' : Poller} {s s' : Sched} {k : KernelAnswer} {valid : Bool}
    (h : p.poll s k = some (p', s', valid)) {w : Wait} (hw : p'.waits.Registered w) :
    p.waits.Registered w := by
  cases p with
  | pollPoller p =>
    cases k with
    | poll r =>
      rcases Option.map_eq_some_iff.mp h with ⟨out, hpoll, heq⟩
      obtain rfl : pollPoller out.state.1 = p' := congrArg Prod.fst heq
      exact PollPoller.poll_registered hpoll hw
    | select timeoutUsec r turns => cases h
  | selectPoller p =>
    cases k with
    | poll r => cases h
    | select timeoutUsec r turns =>
      rcases Option.map_eq_some_iff.mp h with ⟨e, hpoll, heq⟩
      obtain rfl : selectPoller ⟨e.state.1⟩ = p' := congrArg Prod.fst heq
      exact SelectPoller.poll_registered hpoll hw

end Poller

/-- `since` is a history variable: what was open under a number when it was last registered.
    `defined` turns false where `select_poller` advances the iterator of an erased entry; nothing is
    known of what happens after that. -/
structure WaitWorld where
  files : Descriptors := {}
  poller : Poller
  sched : Sched := {}
  since : Direction × Fd → Option OpenFile := fun _ => none
  defined : Bool := true

inductive WaitAct where
  /-- An object is made, used, closed or destroyed, by whichever coroutine has control. -/
  | file (a : SockAct)
  /-- `wait_for_read` or `wait_for_write` of the object `o`. -/
  | waitFor (o : ObjId) (dir : Direction)
  | poll (k : KernelAnswer)
  -- the rest of the program
  | others (s : Sched)

namespace WaitWorld

/-- `_fd` is registered for the current coroutine, which then yields.  In the main context
    `Yield_From_Main` is thrown. -/
def waitFor (w : WaitWorld) (obj : SockObj) (dir : Direction) : WaitWorld :=
  match w.sched.current with
  | some me =>
    { w with
      poller := w.poller.setWaitFor dir obj.fd me
      sched := w.sched.yield me 0
      since := Function.update w.since (dir, obj.fd) (w.files.table obj.fd) }
  | none => w

def step (w : WaitWorld) (a : WaitAct) : Option WaitWorld :=
  if w.defined then
    match a with
    | .file a => (w.files.step a).map fun d => { w with files := d }
    | .waitFor o dir =>
      ((w.files.objects o).filter fun obj => obj.reach ≠ .lost).map fun obj => w.waitFor obj dir
    | .poll k =>
      (w.poller.poll w.sched k).map fun r =>
        { w with poller := r.1, sched := r.2.1, defined := r.2.2 }
    | .others s => some { w with sched := s }
  else none

def Runs (p : NewPoller) (acts : List WaitAct) (w : WaitWorld) : Prop :=
  Run (ofFun step) { poller := .create p } acts w

/-- Every registered descriptor has stayed open since it was registered. -/
def WaitsOpen (w : WaitWorld) : Prop :=
  ∀ wait, w.poller.waits.Registered wait →
    ∃ f, w.since (wait.dir, wait.fd) = some f ∧ w.files.table wait.fd = some f

end WaitWorld

/-- The number that the act passes to `::close`, for a descriptor that was open before. -/
def Descriptors.closing (d : Descriptors) : SockAct → Option Fd
  -- `coro_file() : _fd(0)`
  | .construct _ .failed => some defaultFd
  | .close o => (d.object o).map SockObj.fd
  | .destroy o => ((d.object o).map SockObj.fd).filter fun fd => fd ≠ -1
  | .otherClose fd => some fd
  | _ => none

/-- A wait is made on an open descriptor, and no registered one is closed. -/
def WaitWorld.Careful (w : WaitWorld) : WaitAct → Prop
  | .file a => ∀ wait, w.poller.waits.Registered wait → w.files.closing a ≠ some wait.fd
  | .waitFor o _ =>
    w.sched.current ≠ none → ∀ obj, w.files.objects o = some obj → w.files.table obj.fd ≠ none
  | _ => True

namespace Descriptors

variable {d d' : Descriptors} {a : SockAct} {fd : Fd} {f : OpenFile}

theorem bound_keeps {g : OpenFile} (hfree : d.Free fd) {x : Fd} (hx : d.table x = some f) :
    (d.bound fd g).table x = some f := by
  have hne : x ≠ fd := by
    intro hxfd
    rw [hxfd, hfree.2] at hx
    cases hx
  exact (Function.update_of_ne hne ..).trans hx

theorem fileDestructor_table (o : ObjId) {x : Fd} (hx : x ≠ fd) :
    (d.fileDestructor o fd).table x = d.table x := by
  unfold fileDestructor
  split
  · exact Function.update_of_ne hx ..
  · rfl

theorem fileDestructor_self (o : ObjId) (hfd : fd ≠ -1) :
    (d.fileDestructor o fd).table fd = none := by
  unfold fileDestructor
  rw [if_pos hfd]
  exact Function.update_self ..

theorem closing_close {o : ObjId} {obj : SockObj} (h : d.object o = some obj) :
    d.closing (.close o) = some obj.fd := by
  show (d.object o).map SockObj.fd = _
  rw [h]
  rfl

theorem closing_destroy {o : ObjId} {obj : SockObj} (h : d.object o = some obj) :
    d.closing (.destroy o) = if obj.fd ≠ -1 then some obj.fd else none := by
  show ((d.object o).map SockObj.fd).filter (fun fd => fd ≠ -1) = _
  rw [h, Option.map_some, Option.filter_some]
  simp only [decide_eq_true_eq]

-- What an act does not close stays open.
theorem step_keeps (h : d.step a = some d') (hx : d.table fd = some f)
    (hclose : d.closing a ≠ some fd) : d'.table fd = some f := by
  cases a with
  | construct cls r =>
    rcases construct_cases h with ⟨rfl, rfl⟩ | ⟨-, y, g, hfree, -, -, hend⟩
    · have hne : fd ≠ defaultFd := fun heq => hclose (congrArg some heq.symm)
      exact (fileDestructor_table d.births hne).trans hx
    · rcases hend with rfl | ⟨-, rfl⟩
      · rw [abandon_bound hfree]
        exact hx
      · exact bound_keeps hfree hx
  | accept o r =>
    rcases step_accept h with ⟨obj, -, -, hacc⟩
    rcases acceptOn_cases hacc with ⟨rfl, -⟩ | ⟨hfree, rfl, -⟩ | ⟨y, g, hfree, -, -, -, -, hend⟩
    · exact hx
    · exact bound_keeps hfree hx
    · rcases hend with rfl | ⟨reach, -, rfl⟩
      · rw [abandon_bound hfree]
        exact hx
      · exact bound_keeps hfree hx
  | handshake o ok =>
    rcases step_handshake h with ⟨obj, -, -, rfl⟩
    exact hx
  | io o c =>
    rw [step_io h]
    exact hx
  | close o =>
    rcases Option.map_eq_some_iff.mp h with ⟨obj, hobj, rfl⟩
    have hne : fd ≠ obj.fd := fun heq => hclose (heq ▸ closing_close hobj)
    exact (Function.update_of_ne hne ..).trans hx
  | destroy o =>
    rcases Option.map_eq_some_iff.mp h with ⟨obj, hobj, rfl⟩
    show (d.fileDestructor o obj.fd).table fd = some f
    unfold fileDestructor
    split
    · rename_i hminus
      have hne : fd ≠ obj.fd := by
        intro heq
        apply hclose
        rw [closing_destroy hobj, if_pos hminus, heq]
      exact (Function.update_of_ne hne ..).trans hx
    · exact hx
  | otherOpen y nonblocking =>
    rcases step_otherOpen h with ⟨hfree, rfl⟩
    exact bound_keeps hfree hx
  | otherClose y =>
    rcases step_otherClose h with ⟨g, -, -, rfl⟩
    have hne : fd ≠ y := fun heq => hclose (congrArg some heq.symm)
    exact (Function.update_of_ne hne ..).trans hx

theorem step_closes (h : d.step a = some d') (hclose : d.closing a = some fd) :
    d'.table fd = none := by
  cases a with
  | construct cls r =>
    cases r with
    | failed =>
      obtain rfl := Option.some.inj hclose
      obtain rfl := Option.some.inj h
      exact fileDestructor_self (d := d) d.births (by decide : defaultFd ≠ -1)
    | opened y fcntl ssl => cases hclose
  | close o =>
    rcases Option.map_eq_some_iff.mp h with ⟨obj, hobj, rfl⟩
    rw [closing_close hobj] at hclose
    obtain rfl := Option.some.inj hclose
    exact Function.update_self ..
  | destroy o =>
    rcases Option.map_eq_some_iff.mp h with ⟨obj, hobj, rfl⟩
    rw [closing_destroy hobj, Option.ite_none_right_eq_some] at hclose
    obtain rfl := Option.some.inj hclose.2
    exact fileDestructor_self o hclose.1
  | otherClose y =>
    obtain rfl := Option.some.inj hclose
    rcases step_otherClose h with ⟨g, -, -, rfl⟩
    exact Function.update_self ..
  | accept o r => cases hclose
  | handshake o ok => cases hclose
  | io o c => cases hclose
  | otherOpen y nonblocking => cases hclose

end Descriptors

namespace WaitWorld

variable {w w' : WaitWorld} {a : WaitAct}

theorem step_file {a : SockAct} (h : w.step (.file a) = some w') :
    ∃ d, w.files.step a = some d ∧ w' = { w with files := d } := by
  simp only [step, Option.ite_none_right_eq_some] at h
  rcases Option.map_eq_some_iff.mp h.2 with ⟨d, hd, rfl⟩
  exact ⟨d, hd, rfl⟩

theorem step_waitFor {o : ObjId} {dir : Direction} (h : w.step (.waitFor o dir) = some w') :
    ∃ obj, w.files.objects o = some obj ∧ w' = w.waitFor obj dir := by
  simp only [step, Option.ite_none_right_eq_some] at h
  rcases Option.map_eq_some_iff.mp h.2 with ⟨obj, hobj, rfl⟩
  exact ⟨obj, (Option.filter_eq_some_iff.mp hobj).1, rfl⟩

theorem step_poll {k : KernelAnswer} (h : w.step (.poll k) = some w') :
    ∃ p s valid, w.poller.poll w.sched k = some (p, s, valid) ∧
      w' = { w with poller := p, sched := s, defined := valid } := by
  simp only [step, Option.ite_none_right_eq_some] at h
  rcases Option.map_eq_some_iff.mp h.2 with ⟨⟨p, s, valid⟩, hpoll, rfl⟩
  exact ⟨p, s, valid, hpoll, rfl⟩

theorem step_others {s : Sched} (h : w.step (.others s) = some w') :
    w' = { w with sched := s } := by
  simp only [step, Option.ite_none_right_eq_some] at h
  exact (Option.some.inj h.2).symm

-- A wait on an open descriptor.
theorem WaitsOpen.waitFor (h : WaitsOpen w) {obj : SockObj} {dir : Direction}
    (hopen : w.sched.current ≠ none → w.files.table obj.fd ≠ none) :
    WaitsOpen (w.waitFor obj dir) := by
  unfold WaitWorld.waitFor
  cases hcur : w.sched.current with
  | none => exact h
  | some me =>
    rcases Option.ne_none_iff_exists'.mp (hopen (by rw [hcur]; simp)) with ⟨f, hf⟩
    intro wait hwait
    rw [Poller.waits_setWaitFor, WaitSets.registered_setWaitFor] at hwait
    by_cases hkey : wait.dir = dir ∧ wait.fd = obj.fd
    · rw [hkey.1, hkey.2]
      exact ⟨f, (Function.update_self ..).trans hf, hf⟩
    · rw [if_neg hkey] at hwait
      rcases h wait hwait with ⟨g, hsince, hg⟩
      have hne : (wait.dir, wait.fd) ≠ (dir, obj.fd) := fun heq => hkey (Prod.mk.inj heq)
      exact ⟨g, (Function.update_of_ne hne ..).trans hsince, hg⟩

-- The step lemma: a careful step keeps the registered descriptors open.
theorem WaitsOpen.step (h : WaitsOpen w) (hstep : w.step a = some w') (ha : w.Careful a) :
    WaitsOpen w' := by
  cases a with
  | file a =>
    rcases step_file hstep with ⟨d, hd, rfl⟩
    intro wait hwait
    rcases h wait hwait with ⟨f, hsince, hf⟩
    exact ⟨f, hsince, Descriptors.step_keeps hd hf (ha wait hwait)⟩
  | waitFor o dir =>
    rcases step_waitFor hstep with ⟨obj, hobj, rfl⟩
    exact h.waitFor fun hcur => ha hcur obj hobj
  | poll k =>
    rcases step_poll hstep with ⟨p, s, valid, hpoll, rfl⟩
    exact fun wait hwait => h wait (Poller.poll_registered hpoll hwait)
  | others s =>
    rw [step_others hstep]
    exact h

-- Any other step leaves a registered descriptor closed.
theorem WaitsOpen.careless (hstep : w.step a = some w') (ha : ¬w.Careful a) : ¬WaitsOpen w' := by
  intro hopen
  cases a with
  | file a =>
    rcases step_file hstep with ⟨d, hd, rfl⟩
    apply ha
    intro wait hwait hclose
    rcases hopen wait hwait with ⟨f, -, hf⟩
    have hclosed : d.table wait.fd = none := Descriptors.step_closes hd hclose
    have htable : d.table wait.fd = some f := hf
    rw [hclosed] at htable
    cases htable
  | waitFor o dir =>
    rcases step_waitFor hstep with ⟨obj, hobj, rfl⟩
    apply ha
    intro hcur obj' hobj' hclosed
    obtain rfl := Option.some.inj (hobj.symm.trans hobj')
    rcases Option.ne_none_iff_exists'.mp hcur with ⟨me, hme⟩
    unfold WaitWorld.waitFor at hopen
    rw [hme] at hopen
    have hreg : ((w.poller.setWaitFor dir obj.fd me).waits).Registered ⟨dir, obj.fd, me⟩ := by
      rw [Poller.waits_setWaitFor, WaitSets.registered_setWaitFor, if_pos ⟨rfl, rfl⟩]
    rcases hopen _ hreg with ⟨f, -, hf⟩
    have htable : w.files.table obj.fd = some f := hf
    rw [hclosed] at htable
    cases htable
  | poll k => exact ha trivial
  | others s => exact ha trivial

theorem waitsOpen_init (p : NewPoller) : WaitsOpen { poller := .create p } := by
  intro wait hwait
  have hmem : wait ∈ ({} : WaitSets).registrations := by
    rw [WaitSets.mem_registrations]
    cases p <;> exact hwait
  exact absurd hmem List.not_mem_nil

/-- In every state of a run, with either poller, each registered descriptor has stayed open since it
    was registered, if and only if every wait of the run is made on an open descriptor and no
    descriptor is closed while it is registered. -/
theorem waitsOpen_iff (p : NewPoller) (acts : List WaitAct) :
    (∀ pre w, pre <+: acts → Runs p pre w → WaitsOpen w) ↔
      ∀ pre a w w', pre ++ [a] <+: acts → Runs p pre w → w.step a = some w' → w.Careful a := by
  apply Run.always_iff (I := WaitsOpen) (fun _ h => h) ?_ ?_ (waitsOpen_init p) acts
  · exact fun _ _ _ h hstep ha => h.step hstep ha
  · exact fun _ _ _ _ hstep ha => WaitsOpen.careless hstep ha

/-- Coroutine 1 waits to read from its socket, and coroutine 2 closes it and makes a new one. -/
def closedWhileWaiting : List WaitAct :=
  [.file (.construct .coroSocket (.opened 3 true true)), .others (({} : Sched).switchTo 1 0),
    .waitFor 0 .read, .others (({} : Sched).switchTo 2 0), .file (.close 0),
    .file (.construct .coroSocket (.opened 3 true true))]

-- With either poller descriptor 3 is registered for coroutine 1 and stands for another socket.
theorem closedWhileWaiting_breaks (p : NewPoller) :
    ∃ w, Runs p closedWhileWaiting w ∧ w.poller.waits.Registered ⟨.read, 3, 1⟩ ∧
      (w.since (.read, 3)).map (·.serial) = some 0 ∧
      (w.files.table 3).map (·.serial) = some 1 ∧ ¬WaitsOpen w := by
  have hrun : ∃ w, Runs p closedWhileWaiting w ∧ w.poller.waits.Registered ⟨.read, 3, 1⟩ ∧
      (w.since (.read, 3)).map (·.serial) = some 0 ∧
      (w.files.table 3).map (·.serial) = some 1 := by
    cases p with
    | pollPoller size pollSet => exact ⟨_, run_of_exec rfl, rfl, rfl, rfl⟩
    | selectPoller => exact ⟨_, run_of_exec rfl, rfl, rfl, rfl⟩
  rcases hrun with ⟨w, run, hreg, hsince, hnow⟩
  refine ⟨w, run, hreg, hsince, hnow, ?_⟩
  intro hopen
  rcases hopen _ hreg with ⟨f, hf, hf'⟩
  rw [hf] at hsince
  rw [hf'] at hnow
  exact absurd (hsince.symm.trans hnow) (by decide)

/-- A descriptor is closed, and its number used again, while a coroutine waits for it. -/
theorem waitsOpen_broken :
    (∃ w, Runs .selectPoller closedWhileWaiting w ∧ ¬WaitsOpen w) ∧
      ∃ w, Runs (.pollPoller 4 fun _ => ⟨0, 0, 0⟩) closedWhileWaiting w ∧ ¬WaitsOpen w := by
  rcases closedWhileWaiting_breaks .selectPoller with ⟨w, run, -, -, -, hbroken⟩
  rcases closedWhileWaiting_breaks (.pollPoller 4 fun _ => ⟨0, 0, 0⟩) with
    ⟨w', run', -, -, -, hbroken'⟩
  exact ⟨⟨w, run, hbroken⟩, w', run', hbroken'⟩

end WaitWorld

end Coropp
