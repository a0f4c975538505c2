import Coropp.Descriptors

/-!
# Which descriptors are in non-blocking mode

The constructor of `coro_socket` calls `set_blocking (false)` for a descriptor that it makes itself,
and not for one that it is given; `accept` gives it one.
-/

namespace Coropp

open Transition

/-- The mode of a descriptor is decided where it comes from. -/
structure OpenFile.ModeOk (f : OpenFile) : Prop where
  socket : f.origin = .socket → f.nonblocking = true
  accept : f.origin = .accept → f.nonblocking = false

theorem OpenFile.modeOk_socket {f : OpenFile} (horigin : f.origin = .socket)
    (hmode : f.nonblocking = true) : f.ModeOk where
  socket _ := hmode
  accept hacc := by
    rw [horigin] at hacc
    cases hacc

theorem OpenFile.modeOk_accept {f : OpenFile} (horigin : f.origin = .accept)
    (hmode : f.nonblocking = false) : f.ModeOk where
  socket hsock := by
    rw [horigin] at hsock
    cases hsock
  accept _ := hmode

theorem OpenFile.modeOk_other {f : OpenFile} (horigin : f.origin = .other) : f.ModeOk where
  socket hsock := by
    rw [horigin] at hsock
    cases hsock
  accept hacc := by
    rw [horigin] at hacc
    cases hacc

namespace Descriptors

/-- The descriptor that a call of `read`, `write`, `connect` or `accept` goes to. -/
def issuesOn (d : Descriptors) : SockAct → Option Fd
  | .io o _ => (d.object o).map SockObj.fd
  | .accept o _ => (d.object o).map SockObj.fd
  | _ => none

/-- The system call of `a`, if it makes one, cannot stop the process. -/
def CannotBlock (d : Descriptors) (a : SockAct) : Prop :=
  ∀ fd f, d.issuesOn a = some fd → d.table fd = some f → f.nonblocking = true

/-- The descriptor in question was made by `::socket`; or the number has come to stand for another
    file of the program, one in non-blocking mode. -/
def MadeBySocket (d : Descriptors) (a : SockAct) : Prop :=
  ∀ fd f, d.issuesOn a = some fd → d.table fd = some f →
    f.origin = .socket ∨ f.origin = .other ∧ f.nonblocking = true

def Modes (d : Descriptors) : Prop := ∀ fd f, d.table fd = some f → f.ModeOk

section Steps

variable {d d' : Descriptors} {fd : Fd} {f : OpenFile}

theorem Modes.update (h : Modes d) {t : Option OpenFile} (ht : ∀ f, t = some f → f.ModeOk)
    (htable : d'.table = Function.update d.table fd t) : Modes d' := by
  intro x g hg
  rw [htable] at hg
  rcases Maps.update_eq hg with ⟨-, hnew⟩ | ⟨-, hold⟩
  · exact ht g hnew
  · exact h x g hold

theorem Modes.forget (h : Modes d) (htable : d'.table = Function.update d.table fd none) :
    Modes d' :=
  h.update (t := none) (fun _ hnone => nomatch hnone) htable

theorem Modes.bound (h : Modes d) (hf : f.ModeOk) : Modes (d.bound fd f) :=
  h.update (fun _ hnew => Option.some.inj hnew ▸ hf) rfl

theorem Modes.fileDestructor (h : Modes d) (o : ObjId) : Modes (d.fileDestructor o fd) := by
  unfold Descriptors.fileDestructor
  split
  · exact h.forget rfl
  · exact h

-- The step lemma; what the kernel and OpenSSL answer does not matter.
theorem Modes.step (h : Modes d) {a : SockAct} (hstep : d.step a = some d') : Modes d' := by
  cases a with
  | construct cls r =>
    rcases construct_cases hstep with ⟨-, rfl⟩ | ⟨-, fd, f, hfree, horigin, -, hend⟩
    · have hclosed : Modes (d.fileDestructor d.births defaultFd) := h.fileDestructor d.births
      exact hclosed
    · rcases hend with rfl | ⟨hmode, rfl⟩
      · rw [abandon_bound hfree]
        exact h
      · exact h.bound (OpenFile.modeOk_socket horigin hmode)
  | accept o r =>
    rcases step_accept hstep with ⟨obj, -, -, hacc⟩
    rcases acceptOn_cases hacc with ⟨rfl, -⟩ | ⟨-, rfl, -⟩ |
      ⟨fd, f, hfree, horigin, -, hmode, -, hend⟩
    · exact h
    · exact h.bound (OpenFile.modeOk_accept rfl rfl)
    · rcases hend with rfl | ⟨reach, -, rfl⟩
      · rw [abandon_bound hfree]
        exact h
      · exact h.bound (OpenFile.modeOk_accept horigin hmode)
  | handshake o ok =>
    rcases step_handshake hstep with ⟨obj, -, -, rfl⟩
    exact h
  | io o c =>
    rw [step_io hstep]
    exact h
  | close o =>
    rcases step_close hstep with ⟨obj, -, -, rfl⟩
    exact h.forget rfl
  | destroy o =>
    rcases step_destroy hstep with ⟨obj, -, -, rfl⟩
    exact h.fileDestructor o
  | otherOpen fd nonblocking =>
    rcases step_otherOpen hstep with ⟨-, rfl⟩
    exact h.bound (OpenFile.modeOk_other rfl)
  | otherClose fd =>
    rcases step_otherClose hstep with ⟨f, -, -, rfl⟩
    exact h.forget rfl

theorem runs_modes {acts : List SockAct} (run : Runs acts d) : Modes d :=
  run.invariant (fun _ _ _ h hstep => h.step hstep) (fun _ _ hf => nomatch hf)

-- In a state of a run, a call cannot block if and only if its descriptor was made by `::socket`.
theorem Modes.madeBySocket_iff (h : Modes d) (a : SockAct) :
    d.CannotBlock a ↔ d.MadeBySocket a := by
  constructor
  · intro hmode fd f hfd hf
    have hnonblocking := hmode fd f hfd hf
    cases horigin : f.origin with
    | socket => exact .inl rfl
    | accept =>
      rw [(h fd f hf).accept horigin] at hnonblocking
      cases hnonblocking
    | other => exact .inr ⟨rfl, hnonblocking⟩
  · intro hmade fd f hfd hf
    rcases hmade fd f hfd hf with hsocket | ⟨-, hmode⟩
    · exact (h fd f hf).socket hsocket
    · exact hmode

end Steps

/-- In every state of a run each call of `read`, `write`, `connect` and `accept` goes to a
    descriptor in non-blocking mode, if and only if it never goes to one from `::accept`. -/
theorem cannotBlock_iff (acts : List SockAct) :
    (∀ pre a d, pre ++ [a] <+: acts → Runs pre d → d.CannotBlock a) ↔
      ∀ pre a d, pre ++ [a] <+: acts → Runs pre d → d.MadeBySocket a := by
  constructor
  · intro hall pre a d hpre run
    exact ((runs_modes run).madeBySocket_iff a).mp (hall pre a d hpre run)
  · intro hall pre a d hpre run
    exact ((runs_modes run).madeBySocket_iff a).mpr (hall pre a d hpre run)

/-- A server accepts a client. -/
def serverAccepts : List SockAct :=
  [.construct .coroSocket (.opened 3 true true), .accept 0 (.opened 4 true)]

/-- The next `read` of the client stops the process, that of the server would not. -/
theorem accepted_blocks :
    ∃ d, Runs serverAccepts d ∧ d.CannotBlock (.accept 0 .failed) ∧ ¬d.CannotBlock (.io 1 .read) := by
  have run : Runs serverAccepts _ := run_of_exec rfl
  refine ⟨_, run, ?_, ?_⟩
  · rw [(runs_modes run).madeBySocket_iff]
    intro fd f hfd hf
    obtain rfl := Option.some.inj hfd
    obtain rfl := Option.some.inj hf
    exact .inl rfl
  · intro hmode
    cases hmode 4 _ rfl rfl

end Descriptors

end Coropp
