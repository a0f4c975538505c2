import Coropp.Swap
import Coropp.Event
import Coropp.Lib.Transition

/-!
# The shared stack

All coroutines run on one stack.  `run_pending` keeps the stacks of the suspended ones in copies
on the heap: `create` lays out a first frame, `restore` puts a copy back before the switch into a
coroutine, and `preserve` takes a new copy after the switch back.  Storage for the copies is
assumed to be granted.
-/

namespace Coropp

open Words

/-- Where the shared stack lies, and the words that `create` writes. -/
structure Layout (W : Type) where
  base : Nat
  words : Nat
  room : 6 ≤ words
  null : W
  wrap0 : W
  this : CoroId → W
  addr : Nat → W

-- _stack_top
def Layout.top {W : Type} (L : Layout W) : Nat := L.base + L.words

/-- What a coroutine sees of the machine: its registers and the words of its own stack, those
    from the stack pointer up to `_stack_top`. -/
structure View (W : Type) where
  cpu : Cpu W
  stack : List W

def View.goOnAt {W : Type} (v : View W) (ra : W) : View W := ⟨{ v.cpu with rip := ra }, v.stack⟩

/-- What a coroutine does next.  `work` leaves it with new registers and a stack that ends in the
    given words; below these it may claim `fresh` more words without writing them.  `yield` and
    `finish` call `__swap` with the given return address. -/
inductive Move (W M : Type) where
  | work (fresh : Nat) (cpu : Cpu W) (stack : List W) (mem : M)
  | yield (ra : W)
  | finish (ra : W)

/-- The code of all coroutines: what follows depends on what they can read. -/
abbrev Program (W M : Type) := View W → M → Move W M

/-- The fields of a coroutine object that the switching uses. -/
structure Object (W : Type) where
  state : MachineState W
  stackCopy : Option (List W) := none
  stackCopySize : Nat := 0
  started : Bool := false
  dead : Bool := false

/-- Who has control: the main context, between two entries or just after one, or a coroutine. -/
inductive Control where
  | idle
  | inside (co : CoroId)
  | returned (co : CoroId)
deriving DecidableEq

/-- The machine: `mem` is everything that is not a stack, a register or a coroutine object.  The
    history variable `yielded` keeps what each coroutine saw when it last called `yield`, with the
    address it is to go on at. -/
structure Shared (W M : Type) where
  cpu : Cpu W
  stack : Nat → W
  mem : M
  objects : CoroId → Object W
  main : MachineState W
  current : Option CoroId
  control : Control
  yielded : CoroId → Option (View W)

/-- The steps: the main context does something else than switching; `run_pending` resumes an entry
    (the registers are the main context's at the call of `__swap`); the coroutine goes on;
    `run_pending` goes on after `resume`. -/
inductive Label (W M : Type) where
  | main (mem : M)
  | resume (co : CoroId) (caller : Cpu W)
  | run
  | preserve

namespace Shared

variable {W M : Type}

def setObject (s : Shared W M) (co : CoroId) (o : Object W) : Shared W M :=
  { s with objects := Function.update s.objects co o }

-- _current = this
def setCurrent (s : Shared W M) (co : CoroId) : Shared W M := { s with current := some co }

/-- `coro::create`. -/
def create (L : Layout W) (s : Shared W M) (co : CoroId) : Shared W M :=
  let stack := Function.update s.stack (L.top - 5) L.null
  let stack := Function.update stack (L.top - 4) (L.this co)
  let o := s.objects co
  { s with stack := stack }.setObject co
    { o with
      state := { o.state with
        stackPointer := L.top - 6
        framePointer := L.addr (L.top - 5)
        insnPointer := L.wrap0 }
      started := true }

/-- `if (_stack_copy) restore ()`. -/
def restore (s : Shared W M) (co : CoroId) : Shared W M :=
  let o := s.objects co
  match o.stackCopy with
  | some copy =>
    { s with stack := blit s.stack o.state.stackPointer (copy.take o.stackCopySize) }.setObject co
      { o with stackCopy := none }
  | none => s

/-- `coro::preserve`. -/
def preserve (L : Layout W) (s : Shared W M) (co : CoroId) : Shared W M :=
  let o := s.objects co
  let size := L.top - o.state.stackPointer
  s.setObject co
    { o with stackCopy := some (window s.stack o.state.stackPointer size), stackCopySize := size }

/-- `__swap (&_state, &_main->_state)`, called in the main context. -/
def swapIn (s : Shared W M) (co : CoroId) (caller : Cpu W) : Shared W M :=
  let cpu := pushReturn caller
  let stack := Function.update s.stack cpu.rsp caller.rip
  let ts := (s.objects co).state
  { s with
    main := saveState cpu stack
    cpu := loadCpu ts stack
    stack := loadMem ts stack
    control := .inside co }

/-- `co->resume ()` for an entry of a live coroutine. -/
def resume (L : Layout W) (s : Shared W M) (co : CoroId) (caller : Cpu W) : Shared W M :=
  let s := if (s.objects co).started then s else s.create L co
  ((s.setCurrent co).restore co).swapIn co caller

/-- `__swap (&_main->_state, &_current->_state)`, called by the coroutine that `resume` named. -/
def swapOut (s : Shared W M) (cur co : CoroId) (ra : W) : Shared W M :=
  let cpu := pushReturn s.cpu
  let stack := Function.update s.stack cpu.rsp ra
  { s.setObject cur { s.objects cur with state := saveState cpu stack } with
    cpu := loadCpu s.main stack
    stack := loadMem s.main stack
    control := .returned co }

-- History only.
def noteYield (s : Shared W M) (co : CoroId) (v : View W) : Shared W M :=
  { s with yielded := Function.update s.yielded co (some v) }

/-- `co->dead = true`. -/
def kill (s : Shared W M) (co : CoroId) : Shared W M :=
  s.setObject co { s.objects co with dead := true }

/-- What the coroutine in control sees. -/
def view (L : Layout W) (s : Shared W M) : View W :=
  ⟨s.cpu, window s.stack s.cpu.rsp (L.top - s.cpu.rsp)⟩

/-- The coroutine's own stack becomes `fresh` unwritten words and then `words`. -/
def work (L : Layout W) (s : Shared W M) (fresh : Nat) (cpu : Cpu W) (words : List W) (mem : M) :
    Shared W M :=
  { s with
    cpu := { cpu with rsp := L.top - (fresh + words.length) }
    stack := blit s.stack (L.top - words.length) words
    mem := mem }

def step (L : Layout W) (prog : Program W M) (s : Shared W M) : Label W M → Option (Shared W M)
  | .main mem =>
    match s.control with
    | .idle => some { s with mem := mem }
    | _ => none
  | .resume co caller =>
    match s.control with
    | .idle =>
      -- Dead_Coro leaves everything as it is
      if (s.objects co).dead then some s
      -- the main context's stack is elsewhere
      else if caller.rsp = 0 ∨ (L.base < caller.rsp ∧ caller.rsp ≤ L.top) then none
      else some (s.resume L co caller)
    | _ => none
  | .run =>
    match s.control, s.current with
    | .inside co, some cur =>
      match prog (s.view L) s.mem with
      | .work fresh cpu words mem =>
        if fresh + words.length ≤ L.words then some (s.work L fresh cpu words mem) else none
      | .yield ra =>
        if L.base < s.cpu.rsp then
          some ((s.swapOut cur co ra).noteYield co ((s.view L).goOnAt ra))
        else none
      | .finish ra =>
        if L.base < s.cpu.rsp then some ((s.kill co).swapOut cur co ra) else none
    | _, _ => none
  | .preserve =>
    match s.control with
    | .returned co =>
      if (s.objects co).dead then some { s with control := .idle }
      else some { s.preserve L co with control := .idle }
    | _ => none

end Shared

end Coropp
