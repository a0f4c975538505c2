import Coropp.Lib.Words

/-!
# `machine_state` and `__swap`

The context switch of `swap.h` for x86_64.  Stacks are words of one memory, and a stack pointer is
the index of a word.  The two `machine_state` records that `__swap` is given are distinct and do
not lie on a stack.
-/

namespace Coropp

open Words

structure MachineState (W : Type) where
  stackPointer : Nat
  framePointer : W
  insnPointer : W
  ebx : W
  r12 : W
  r13 : W
  r14 : W
  r15 : W

/-- The registers that survive a call, and the instruction pointer. -/
structure Cpu (W : Type) where
  rsp : Nat
  rbp : W
  rip : W
  rbx : W
  r12 : W
  r13 : W
  r14 : W
  r15 : W

variable {W : Type}

-- call: push the return address.  The callee starts with the other registers unchanged.
def pushReturn (cpu : Cpu W) : Cpu W := { cpu with rsp := cpu.rsp - 1 }

/-- The first half of `__swap`: fill in `from_state`. -/
def saveState (cpu : Cpu W) (mem : Nat → W) : MachineState W where
  stackPointer := cpu.rsp
  framePointer := cpu.rbp
  insnPointer := mem cpu.rsp
  ebx := cpu.rbx
  r12 := cpu.r12
  r13 := cpu.r13
  r14 := cpu.r14
  r15 := cpu.r15

-- movq %rax, (%rsp): the word that ret is about to pop.
def loadMem (ts : MachineState W) (mem : Nat → W) : Nat → W :=
  Function.update mem ts.stackPointer ts.insnPointer

/-- The second half of `__swap`, with its `ret`: take the registers from `to_state` (`ts`). -/
def loadCpu (ts : MachineState W) (mem : Nat → W) : Cpu W where
  rsp := ts.stackPointer + 1
  rbp := ts.framePointer
  rip := loadMem ts mem ts.stackPointer
  rbx := ts.ebx
  r12 := ts.r12
  r13 := ts.r13
  r14 := ts.r14
  r15 := ts.r15

-- Switching back to a saved state continues after the call that saved it, whatever has become
-- of the memory in between.
theorem loadCpu_saveState (cpu : Cpu W) (mem mem' : Nat → W) :
    loadCpu (saveState cpu mem) mem' = { cpu with rsp := cpu.rsp + 1, rip := mem cpu.rsp } := by
  simp only [loadCpu, saveState, loadMem, Function.update_self]

end Coropp
