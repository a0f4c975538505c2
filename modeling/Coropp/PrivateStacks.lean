import Coropp.StackCopy

/-!
# Stack copying refines private stacks

The specification machine gives every coroutine a stack of its own, so switching only changes who
has control.  Every run on the shared stack is a run of that machine.  Words that nothing has
written are left to chance there: the unwritten words of a first frame and the words that a
coroutine claims without writing them.
-/

namespace Coropp

open Words

variable {W M : Type}

-- Control, with what the coroutine in control sees.
inductive PrivateControl (W : Type) where
  | idle
  | inside (co : CoroId) (v : View W)
  | returned (co : CoroId)

/-- A machine with one stack per coroutine: `ctx` is where a suspended coroutine goes on, `main`
    where the main context does. -/
structure Private (W M : Type) where
  ctx : CoroId → View W
  started : CoroId → Bool
  dead : CoroId → Bool
  main : Cpu W
  mem : M
  control : PrivateControl W

/-- The first frame of a coroutine whose other registers are whatever `regs` holds. -/
def firstView (L : Layout W) (regs : MachineState W) (co : CoroId) (junk : List W) : View W :=
  ⟨{ rsp := L.top - 5, rbp := L.addr (L.top - 5), rip := L.wrap0, rbx := regs.ebx,
      r12 := regs.r12, r13 := regs.r13, r14 := regs.r14, r15 := regs.r15 },
    L.null :: L.this co :: junk⟩

-- The main context's stack pointer at a call is not on the coroutines' stack.
def Elsewhere (L : Layout W) (caller : Cpu W) : Prop :=
  ¬(caller.rsp = 0 ∨ (L.base < caller.rsp ∧ caller.rsp ≤ L.top))

/-- The steps of the machine with private stacks, under the labels of the shared one. -/
inductive Private.Step (L : Layout W) (regs : CoroId → MachineState W) (prog : Program W M) :
    Private W M → Label W M → Private W M → Prop
  | main {p} (mem : M) (hc : p.control = .idle) : Step L regs prog p (.main mem) { p with mem := mem }
  | resumeDead {p co} (caller : Cpu W) (hc : p.control = .idle) (hd : p.dead co = true) :
      Step L regs prog p (.resume co caller) p
  | resumeNew {p co} (caller : Cpu W) (junk : List W) (hc : p.control = .idle)
      (hd : p.dead co = false) (hs : p.started co = false) (he : Elsewhere L caller)
      (hj : junk.length = 3) :
      Step L regs prog p (.resume co caller)
        { p with
          started := Function.update p.started co true
          main := caller
          control := .inside co (firstView L (regs co) co junk) }
  | resume {p co} (caller : Cpu W) (hc : p.control = .idle) (hd : p.dead co = false)
      (hs : p.started co = true) (he : Elsewhere L caller) :
      Step L regs prog p (.resume co caller)
        { p with main := caller, control := .inside co (p.ctx co) }
  | work {p co v fresh cpu words mem} (junk : List W) (hc : p.control = .inside co v)
      (hp : prog v p.mem = .work fresh cpu words mem) (hj : junk.length = fresh)
      (hfit : fresh + words.length ≤ L.words) :
      Step L regs prog p .run
        { p with
          mem := mem
          control := .inside co
            ⟨{ cpu with rsp := L.top - (fresh + words.length) }, junk ++ words⟩ }
  | yield {p co v ra} (hc : p.control = .inside co v) (hp : prog v p.mem = .yield ra)
      (hfit : v.stack.length < L.words) :
      Step L regs prog p .run
        { p with ctx := Function.update p.ctx co (v.goOnAt ra), control := .returned co }
  | finish {p co v ra} (hc : p.control = .inside co v) (hp : prog v p.mem = .finish ra)
      (hfit : v.stack.length < L.words) :
      Step L regs prog p .run
        { p with dead := Function.update p.dead co true, control := .returned co }
  | preserve {p co} (hc : p.control = .returned co) :
      Step L regs prog p .preserve { p with control := .idle }

/-! ## How the two machines correspond -/

/-- The registers that `__swap` has saved of a coroutine that goes on with the view `v`: the
    return address is still on the stack. -/
def savedState (L : Layout W) (v : View W) : MachineState W where
  stackPointer := L.top - (v.stack.length + 1)
  framePointer := v.cpu.rbp
  insnPointer := v.cpu.rip
  ebx := v.cpu.rbx
  r12 := v.cpu.r12
  r13 := v.cpu.r13
  r14 := v.cpu.r14
  r15 := v.cpu.r15

-- A view whose stack pointer is where its stack begins, with room for a return address.
structure View.Fits (L : Layout W) (v : View W) : Prop where
  rsp : v.cpu.rsp = L.top - v.stack.length
  room : v.stack.length + 1 ≤ L.words

-- The words of the stack that a suspended coroutine needs: the return address and its own words.
def View.slice (v : View W) : List W := v.cpu.rip :: v.stack

/-- A suspended coroutine whose stack is in its copy. -/
structure Parked (L : Layout W) (o : Object W) (v : View W) : Prop where
  fits : v.Fits L
  state : o.state = savedState L v
  copy : o.stackCopy = some v.slice
  size : o.stackCopySize = v.slice.length

/-- A suspended coroutine whose stack is still in place. -/
structure InPlace (L : Layout W) (stack : Nat → W) (o : Object W) (v : View W) : Prop where
  fits : v.Fits L
  state : o.state = savedState L v
  copy : o.stackCopy = none
  slice : window stack (L.top - (v.stack.length + 1)) (v.stack.length + 1) = v.slice

-- What `saveState` has kept of a main context that goes on with the registers `cpu`.
def savedMain (cpu : Cpu W) : MachineState W where
  stackPointer := cpu.rsp - 1
  framePointer := cpu.rbp
  insnPointer := cpu.rip
  ebx := cpu.rbx
  r12 := cpu.r12
  r13 := cpu.r13
  r14 := cpu.r14
  r15 := cpu.r15

-- The parts of the correspondence that depend on who has control.
def ControlMatch (L : Layout W) (s : Shared W M) (p : Private W M) : Prop :=
  match p.control with
  | .idle =>
    s.control = .idle ∧
      ∀ co, p.started co = true → p.dead co = false → Parked L (s.objects co) (p.ctx co)
  | .inside co v =>
    s.control = .inside co ∧ s.current = some co ∧ s.view L = v ∧
      s.cpu.rsp = L.top - v.stack.length ∧ v.stack.length ≤ L.words ∧
      p.started co = true ∧ p.dead co = false ∧ (s.objects co).stackCopy = none ∧
      s.main = savedMain p.main ∧ Elsewhere L p.main ∧
      ∀ c, c ≠ co → p.started c = true → p.dead c = false → Parked L (s.objects c) (p.ctx c)
  | .returned co =>
    s.control = .returned co ∧ s.cpu = p.main ∧
      (p.dead co = false → p.started co = true ∧ InPlace L s.stack (s.objects co) (p.ctx co)) ∧
      ∀ c, c ≠ co → p.started c = true → p.dead c = false → Parked L (s.objects c) (p.ctx c)

/-- The shared machine `s` is in the state that `p` describes. -/
structure Simulates (L : Layout W) (regs : CoroId → MachineState W) (s : Shared W M)
    (p : Private W M) : Prop where
  mem : s.mem = p.mem
  started : ∀ co, (s.objects co).started = p.started co
  dead : ∀ co, (s.objects co).dead = p.dead co
  untouched : ∀ co, p.started co = false →
    (s.objects co).state = regs co ∧ (s.objects co).stackCopy = none
  yielded : ∀ co v, s.yielded co = some v → p.started co = true
  lastYield : ∀ co v, s.yielded co = some v → p.ctx co = v
  control : ControlMatch L s p

/-! ## Switching in -/

section

variable {L : Layout W} {s : Shared W M} {co : CoroId} {caller : Cpu W}

theorem setObject_self (s : Shared W M) (co : CoroId) (o : Object W) :
    (s.setObject co o).objects co = o :=
  Function.update_self ..

theorem setObject_of_ne (s : Shared W M) {co c : CoroId} (o : Object W) (h : c ≠ co) :
    (s.setObject co o).objects c = s.objects c :=
  Function.update_of_ne h ..

theorem Elsewhere.outside (he : Elsewhere L caller) :
    caller.rsp - 1 < L.base ∨ L.top ≤ caller.rsp - 1 := by
  unfold Elsewhere at he
  omega

theorem Elsewhere.pos (he : Elsewhere L caller) : caller.rsp - 1 + 1 = caller.rsp := by
  unfold Elsewhere at he
  omega

theorem loadCpu_savedMain (cpu : Cpu W) (mem : Nat → W) (h : cpu.rsp - 1 + 1 = cpu.rsp) :
    loadCpu (savedMain cpu) mem = cpu := by
  simp only [loadCpu, savedMain, loadMem, Function.update_self, h]

theorem saveState_caller (caller : Cpu W) (mem : Nat → W) :
    saveState (pushReturn caller) (Function.update mem (pushReturn caller).rsp caller.rip) =
      savedMain caller := by
  simp only [saveState, savedMain, pushReturn, Function.update_self]

-- The registers a coroutine goes on with when `ts` has been saved for it.
def savedCpu (ts : MachineState W) : Cpu W where
  rsp := ts.stackPointer + 1
  rbp := ts.framePointer
  rip := ts.insnPointer
  rbx := ts.ebx
  r12 := ts.r12
  r13 := ts.r13
  r14 := ts.r14
  r15 := ts.r15

theorem savedCpu_savedState {v : View W} (h : v.Fits L) : savedCpu (savedState L v) = v.cpu := by
  have htop : L.top = L.base + L.words := rfl
  have hrsp := h.rsp
  have hroom := h.room
  simp only [savedState, savedCpu, show L.top - (v.stack.length + 1) + 1 = v.cpu.rsp by omega]

-- After `__swap` into a coroutine, it sees the registers saved for it and the words that the
-- shared stack holds above its return address.
theorem swapIn_view {ts : MachineState W} (hts : (s.objects co).state = ts)
    (he : Elsewhere L caller) (hlo : L.base ≤ ts.stackPointer)
    (hhi : ts.stackPointer + 1 ≤ L.top) :
    (s.swapIn co caller).view L =
      ⟨savedCpu ts, window s.stack (ts.stackPointer + 1) (L.top - (ts.stackPointer + 1))⟩ := by
  have hout := he.outside
  simp only [Shared.view, Shared.swapIn, hts, loadCpu, loadMem, Function.update_self, pushReturn]
  rw [window_update_outside (.inl (by omega)), window_update_outside (by omega)]
  rfl

theorem restore_some {copy : List W} (h : (s.objects co).stackCopy = some copy) :
    s.restore co =
      ({ s with
        stack := blit s.stack (s.objects co).state.stackPointer
          (copy.take (s.objects co).stackCopySize) } : Shared W M).setObject co
        { s.objects co with stackCopy := none } := by
  unfold Shared.restore
  simp only [h]

theorem restore_none (h : (s.objects co).stackCopy = none) : s.restore co = s := by
  unfold Shared.restore
  simp only [h]

theorem restore_objects_of_ne {c : CoroId} (h : c ≠ co) :
    (s.restore co).objects c = s.objects c := by
  unfold Shared.restore
  dsimp only
  split
  · exact setObject_of_ne _ _ h
  · rfl

theorem create_objects_of_ne {c : CoroId} (h : c ≠ co) :
    (s.create L co).objects c = s.objects c :=
  setObject_of_ne _ _ h

theorem resume_objects_of_ne {c : CoroId} (h : c ≠ co) :
    (s.resume L co caller).objects c = s.objects c := by
  have hrestore : (s.resume L co caller).objects c =
      (if (s.objects co).started then s else s.create L co).objects c :=
    restore_objects_of_ne h
  rw [hrestore]
  split
  · rfl
  · exact create_objects_of_ne h

-- Resuming a parked coroutine puts back what it saw when it was parked.
theorem resume_parked {v : View W} (hp : Parked L (s.objects co) v)
    (hs : (s.objects co).started = true) (he : Elsewhere L caller) :
    (s.resume L co caller).view L = v ∧
      (s.resume L co caller).objects co = { s.objects co with stackCopy := none } := by
  have htop : L.top = L.base + L.words := rfl
  have hrsp := hp.fits.rsp
  have hroom := hp.fits.room
  have hsp : (s.objects co).state.stackPointer = L.top - (v.stack.length + 1) := by
    rw [hp.state]
    rfl
  have hresume : s.resume L co caller = Shared.swapIn
      (({ s.setCurrent co with
        stack := blit s.stack (L.top - (v.stack.length + 1)) v.slice } : Shared W M).setObject co
          { s.objects co with stackCopy := none }) co caller := by
    rw [Shared.resume, if_pos hs, restore_some (s := s.setCurrent co) hp.copy]
    change Shared.swapIn (Shared.setObject { s.setCurrent co with
      stack := blit s.stack (s.objects co).state.stackPointer
        (v.slice.take (s.objects co).stackCopySize) } co _) co caller = _
    rw [hp.size, List.take_length, hsp]
    rfl
  have hwords : window (blit s.stack (L.top - (v.stack.length + 1)) v.slice)
      (L.top - (v.stack.length + 1) + 1) (L.top - (L.top - (v.stack.length + 1) + 1)) =
      v.stack := by
    have hall := window_blit s.stack (L.top - (v.stack.length + 1)) v.slice
    rw [show v.slice.length = v.stack.length + 1 from rfl, window_succ] at hall
    rw [show L.top - (L.top - (v.stack.length + 1) + 1) = v.stack.length by omega]
    exact (List.cons.inj hall).2
  constructor
  · have hts : ((({ s.setCurrent co with
        stack := blit s.stack (L.top - (v.stack.length + 1)) v.slice } : Shared W M).setObject co
          { s.objects co with stackCopy := none }).objects co).state = savedState L v := by
      rw [setObject_self]
      exact hp.state
    rw [hresume, swapIn_view hts he (by simp only [savedState]; omega)
      (by simp only [savedState]; omega)]
    change View.mk (savedCpu (savedState L v)) (window (blit s.stack _ v.slice)
      (L.top - (v.stack.length + 1) + 1) (L.top - (L.top - (v.stack.length + 1) + 1))) = v
    rw [savedCpu_savedState hp.fits, hwords]
  · rw [hresume]
    exact setObject_self ..

theorem create_self : (s.create L co).objects co =
    { s.objects co with
      state := { (s.objects co).state with
        stackPointer := L.top - 6
        framePointer := L.addr (L.top - 5)
        insnPointer := L.wrap0 }
      started := true } :=
  setObject_self ..

-- A new coroutine starts with its first frame, over three words nobody has written.
theorem resume_new (hs : (s.objects co).started = false)
    (hcopy : (s.objects co).stackCopy = none) (he : Elsewhere L caller) :
    (s.resume L co caller).view L =
        firstView L (s.objects co).state co (window s.stack (L.top - 3) 3) ∧
      (s.resume L co caller).objects co = (s.create L co).objects co := by
  have htop : L.top = L.base + L.words := rfl
  have hroom := L.room
  have hresume : s.resume L co caller = ((s.create L co).setCurrent co).swapIn co caller := by
    rw [Shared.resume, if_neg (by simp [hs]), restore_none]
    rw [show ((s.create L co).setCurrent co).objects co = (s.create L co).objects co from rfl,
      create_self]
    exact hcopy
  have hstate : (((s.create L co).setCurrent co).objects co).state =
      ((s.create L co).objects co).state := rfl
  rw [hresume]
  refine ⟨?_, rfl⟩
  rw [create_self] at hstate
  rw [swapIn_view hstate he (by dsimp only; omega) (by dsimp only; omega)]
  have hframe : window ((s.create L co).setCurrent co).stack (L.top - 5) 5 =
      L.null :: L.this co :: window s.stack (L.top - 3) 3 := by
    have hstack : ((s.create L co).setCurrent co).stack =
        Function.update (Function.update s.stack (L.top - 5) L.null) (L.top - 4) (L.this co) := rfl
    rw [hstack, window_succ, window_succ, show L.top - 5 + 1 = L.top - 4 by omega,
      show L.top - 4 + 1 = L.top - 3 by omega, Function.update_self,
      Function.update_of_ne (by omega), Function.update_self,
      window_update_outside (.inl (by omega)), window_update_outside (.inl (by omega))]
  simp only [savedCpu, firstView, show L.top - 6 + 1 = L.top - 5 by omega,
    show L.top - (L.top - 5) = 5 by omega, hframe]

/-! ## Switching out -/

-- After `__swap` back to the main context, the words that the coroutine will need are on the
-- shared stack, its registers are saved, and the main context has its own registers again.
theorem swapOut_inPlace {main : Cpu W} (ra : W) {o : Object W} (ho : s.objects co = o)
    (hrsp : s.cpu.rsp = L.top - (s.view L).stack.length) (hlo : L.base < s.cpu.rsp)
    (hcopy : o.stackCopy = none) (hmain : s.main = savedMain main) (he : Elsewhere L main) :
    InPlace L (s.swapOut co co ra).stack ((s.swapOut co co ra).objects co)
        ((s.view L).goOnAt ra) ∧
      (s.swapOut co co ra).cpu = main ∧
      (s.swapOut co co ra).objects co =
        { o with state := savedState L ((s.view L).goOnAt ra) } := by
  have hout := he.outside
  have htop : L.top = L.base + L.words := rfl
  have hlen : (s.view L).stack.length = L.top - s.cpu.rsp := window_length ..
  have hstate : saveState (pushReturn s.cpu)
      (Function.update s.stack (pushReturn s.cpu).rsp ra) =
      savedState L ((s.view L).goOnAt ra) := by
    simp only [saveState, savedState, pushReturn, Function.update_self, View.goOnAt]
    rw [show L.top - ((s.view L).stack.length + 1) = s.cpu.rsp - 1 by omega]
    rfl
  have hobj : (s.swapOut co co ra).objects co =
      { o with state := savedState L ((s.view L).goOnAt ra) } := by
    rw [← hstate, ← ho]
    exact setObject_self ..
  refine ⟨⟨⟨?_, ?_⟩, by rw [hobj], by rw [hobj]; exact hcopy, ?_⟩, ?_, hobj⟩
  · exact hrsp
  · change (s.view L).stack.length + 1 ≤ L.words
    omega
  · change window (loadMem s.main (Function.update s.stack (s.cpu.rsp - 1) ra))
      (L.top - ((s.view L).stack.length + 1)) ((s.view L).stack.length + 1) = _
    rw [hmain, show L.top - ((s.view L).stack.length + 1) = s.cpu.rsp - 1 by omega, loadMem,
      window_update_outside (by simp only [savedMain]; omega), window_succ, Function.update_self,
      window_update_outside (.inl (by omega)), show s.cpu.rsp - 1 + 1 = s.cpu.rsp by omega, hlen]
    rfl
  · change loadCpu s.main _ = main
    rw [hmain]
    exact loadCpu_savedMain _ _ he.pos

-- `preserve` parks what is still in place.
theorem preserve_parked {v : View W} (h : InPlace L s.stack (s.objects co) v) :
    Parked L ((s.preserve L co).objects co) v := by
  have htop : L.top = L.base + L.words := rfl
  have hroom := h.fits.room
  have hobj : (s.preserve L co).objects co =
      { s.objects co with
        stackCopy := some (window s.stack (s.objects co).state.stackPointer
          (L.top - (s.objects co).state.stackPointer))
        stackCopySize := L.top - (s.objects co).state.stackPointer } :=
    setObject_self ..
  have hsize : L.top - (L.top - (v.stack.length + 1)) = v.stack.length + 1 := by omega
  rw [hobj]
  refine ⟨h.fits, h.state, ?_, ?_⟩
  · dsimp only
    rw [h.state, ← h.slice]
    simp only [savedState, hsize]
  · dsimp only
    rw [h.state]
    exact hsize

end

/-! ## The simulation -/

variable {L : Layout W} {regs : CoroId → MachineState W} {prog : Program W M}

theorem Simulates.idle {s : Shared W M} {p : Private W M} (h : Simulates L regs s p)
    (hc : s.control = .idle) : p.control = .idle ∧
      ∀ co, p.started co = true → p.dead co = false → Parked L (s.objects co) (p.ctx co) := by
  have hm := h.control
  unfold ControlMatch at hm
  cases hp : p.control <;> simp only [hp, hc] at hm
  · exact ⟨rfl, hm.2⟩
  · simp at hm
  · simp at hm

/-- What the correspondence says while coroutine `co` is in control. -/
structure InsideMatch (L : Layout W) (s : Shared W M) (p : Private W M) (co : CoroId) : Prop where
  private_control : p.control = .inside co (s.view L)
  current : s.current = some co
  rsp : s.cpu.rsp = L.top - (s.view L).stack.length
  fits : (s.view L).stack.length ≤ L.words
  started : p.started co = true
  alive : p.dead co = false
  copy : (s.objects co).stackCopy = none
  main : s.main = savedMain p.main
  elsewhere : Elsewhere L p.main
  others : ∀ c, c ≠ co → p.started c = true → p.dead c = false → Parked L (s.objects c) (p.ctx c)

theorem Simulates.inside {s : Shared W M} {p : Private W M} {co : CoroId}
    (h : Simulates L regs s p) (hc : s.control = .inside co) : InsideMatch L s p co := by
  have hm := h.control
  unfold ControlMatch at hm
  cases hp : p.control <;> simp only [hp, hc] at hm
  · simp at hm
  · rcases hm with ⟨hco, hcur, hview, hrsp, hfits, hst, hd, hcopy, hmain, he, hothers⟩
    obtain rfl := Control.inside.inj hco
    subst hview
    exact ⟨hp, hcur, hrsp, hfits, hst, hd, hcopy, hmain, he, hothers⟩
  · simp at hm

theorem Simulates.returned {s : Shared W M} {p : Private W M} {co : CoroId}
    (h : Simulates L regs s p) (hc : s.control = .returned co) : p.control = .returned co ∧
      (p.dead co = false → p.started co = true ∧ InPlace L s.stack (s.objects co) (p.ctx co)) ∧
      ∀ c, c ≠ co → p.started c = true → p.dead c = false →
        Parked L (s.objects c) (p.ctx c) := by
  have hm := h.control
  unfold ControlMatch at hm
  cases hp : p.control <;> simp only [hp, hc] at hm
  · simp at hm
  · simp at hm
  · rcases hm with ⟨hco, -, hself, hothers⟩
    obtain rfl := Control.returned.inj hco
    exact ⟨rfl, hself, hothers⟩

-- A step that touches one started coroutine keeps the correspondence of the others.
theorem Simulates.only {s s' : Shared W M} {p p' : Private W M} {co : CoroId}
    (h : Simulates L regs s p) (hmem : s'.mem = p'.mem)
    (hobj : ∀ c, c ≠ co → s'.objects c = s.objects c ∧ s'.yielded c = s.yielded c)
    (hpriv : ∀ c, c ≠ co →
      p'.started c = p.started c ∧ p'.dead c = p.dead c ∧ p'.ctx c = p.ctx c)
    (hstarted : (s'.objects co).started = true ∧ p'.started co = true)
    (hdead : (s'.objects co).dead = p'.dead co)
    (hlast : ∀ v, s'.yielded co = some v → p'.ctx co = v)
    (hcontrol : ControlMatch L s' p') : Simulates L regs s' p' where
  mem := hmem
  started := by
    intro c
    by_cases hne : c = co
    · rw [hne, hstarted.1, hstarted.2]
    · rw [(hobj c hne).1, (hpriv c hne).1]
      exact h.started c
  dead := by
    intro c
    by_cases hne : c = co
    · rw [hne]
      exact hdead
    · rw [(hobj c hne).1, (hpriv c hne).2.1]
      exact h.dead c
  untouched := by
    intro c hc
    have hne : c ≠ co := by
      rintro rfl
      simp [hstarted.2] at hc
    rw [(hobj c hne).1]
    exact h.untouched c ((hpriv c hne).1.symm.trans hc)
  yielded := by
    intro c v hv
    by_cases hne : c = co
    · rw [hne]
      exact hstarted.2
    · rw [(hpriv c hne).1]
      exact h.yielded c v ((hobj c hne).2.symm.trans hv)
  lastYield := by
    intro c v hv
    by_cases hne : c = co
    · subst hne
      exact hlast v hv
    · rw [(hpriv c hne).2.2]
      exact h.lastYield c v ((hobj c hne).2.symm.trans hv)
  control := hcontrol

theorem resume_rest (L : Layout W) (s : Shared W M) (co : CoroId) (caller : Cpu W) :
    (s.resume L co caller).mem = s.mem ∧ (s.resume L co caller).yielded = s.yielded ∧
      (s.resume L co caller).current = some co ∧
      (s.resume L co caller).main = savedMain caller := by
  refine ⟨?_, ?_, ?_, saveState_caller caller _⟩
  all_goals
    unfold Shared.resume Shared.restore
    dsimp only
    split <;> split <;> rfl

theorem simulates_resume {s : Shared W M} {p : Private W M} {co : CoroId} {caller : Cpu W}
    (h : Simulates L regs s p) (hc : s.control = .idle) (hd : (s.objects co).dead = false)
    (he : Elsewhere L caller) :
    ∃ p', Private.Step L regs prog p (.resume co caller) p' ∧
      Simulates L regs (s.resume L co caller) p' := by
  rcases h.idle hc with ⟨hidle, hparked⟩
  rcases resume_rest L s co caller with ⟨hmem, hyielded, hcurrent, hmain⟩
  have hdead : p.dead co = false := (h.dead co).symm.trans hd
  have hobj : ∀ c, c ≠ co → (s.resume L co caller).objects c = s.objects c ∧
      (s.resume L co caller).yielded c = s.yielded c :=
    fun c hne => ⟨resume_objects_of_ne hne, by rw [hyielded]⟩
  cases hs : p.started co with
  | true =>
    have hpk := hparked co hs hdead
    have hst : (s.objects co).started = true := (h.started co).trans hs
    rcases resume_parked hpk hst he with ⟨hview, hself⟩
    have hroom := hpk.fits.room
    refine ⟨_, .resume caller hidle hdead hs he, ?_⟩
    refine h.only (hmem.trans h.mem) hobj (fun c _ => ⟨rfl, rfl, rfl⟩)
      ⟨by rw [hself]; exact hst, hs⟩ (by rw [hself]; exact h.dead co)
      (fun v hv => h.lastYield co v (by rwa [hyielded] at hv)) ?_
    refine ⟨rfl, hcurrent, hview, ?_, by omega, hs, hdead, by rw [hself], hmain, he, ?_⟩
    · rw [show (s.resume L co caller).cpu = ((s.resume L co caller).view L).cpu from rfl, hview]
      exact hpk.fits.rsp
    · intro c hne hst' hd'
      rw [(hobj c hne).1]
      exact hparked c hst' hd'
  | false =>
    rcases h.untouched co hs with ⟨hregs, hnone⟩
    have hst : (s.objects co).started = false := (h.started co).trans hs
    rcases resume_new hst hnone he with ⟨hview, hself⟩
    rw [hregs] at hview
    rw [create_self] at hself
    have hroom := L.room
    have hp : ∀ c, c ≠ co → Function.update p.started co true c = p.started c :=
      fun c hne => Function.update_of_ne hne ..
    refine ⟨_, .resumeNew caller (window s.stack (L.top - 3) 3) hidle hdead hs he
      (window_length ..), ?_⟩
    refine h.only (hmem.trans h.mem) hobj (fun c hne => ⟨hp c hne, rfl, rfl⟩)
      ⟨by rw [hself], Function.update_self ..⟩ (by rw [hself]; exact h.dead co)
      (fun v hv => h.lastYield co v (by rwa [hyielded] at hv)) ?_
    refine ⟨rfl, hcurrent, hview, ?_, ?_, Function.update_self .., hdead, ?_, hmain, he, ?_⟩
    · rw [show (s.resume L co caller).cpu = ((s.resume L co caller).view L).cpu from rfl, hview]
      simp only [firstView, List.length_cons, window_length]
    · simp only [firstView, List.length_cons, window_length]
      omega
    · rw [hself]
      exact hnone
    · intro c hne hst' hd'
      rw [(hobj c hne).1]
      exact hparked c ((hp c hne).symm.trans hst') hd'

theorem simulates_work {s : Shared W M} {p : Private W M} {co : CoroId} {fresh : Nat}
    {cpu : Cpu W} {words : List W} {mem : M} (h : Simulates L regs s p)
    (hc : s.control = .inside co) (hprog : prog (s.view L) s.mem = .work fresh cpu words mem)
    (hfit : fresh + words.length ≤ L.words) :
    ∃ p', Private.Step L regs prog p .run p' ∧
      Simulates L regs (s.work L fresh cpu words mem) p' := by
  have hin := h.inside hc
  have htop : L.top = L.base + L.words := rfl
  -- the claimed words hold whatever the shared stack holds there
  have hclaimed : window (s.work L fresh cpu words mem).stack (L.top - (fresh + words.length))
      (L.top - (L.top - (fresh + words.length))) =
      window s.stack (L.top - (fresh + words.length)) fresh ++ words := by
    rw [show L.top - (L.top - (fresh + words.length)) = fresh + words.length by omega, window_add,
      show L.top - (fresh + words.length) + fresh = L.top - words.length by omega]
    change window (blit s.stack (L.top - words.length) words) _ _ ++
      window (blit s.stack (L.top - words.length) words) _ _ = _
    rw [window_blit, window_blit_below (by omega)]
  have hlen : (window s.stack (L.top - (fresh + words.length)) fresh ++ words).length =
      fresh + words.length := by
    rw [List.length_append, window_length]
  rw [h.mem] at hprog
  refine ⟨_, .work (window s.stack (L.top - (fresh + words.length)) fresh) hin.private_control
    hprog (window_length ..) hfit, ?_⟩
  refine h.only rfl (fun c _ => ⟨rfl, rfl⟩) (fun c _ => ⟨rfl, rfl, rfl⟩)
    ⟨(h.started co).trans hin.started, hin.started⟩ (h.dead co) (h.lastYield co) ?_
  refine ⟨hc, hin.current, ?_, ?_, ?_, hin.started, hin.alive, hin.copy, hin.main, hin.elsewhere,
    hin.others⟩
  · exact congrArg (View.mk _) hclaimed
  · change L.top - (fresh + words.length) = _
    rw [hlen]
  · rw [hlen]
    exact hfit

theorem swapOut_objects_of_ne {s : Shared W M} {co c : CoroId} {ra : W} (h : c ≠ co) :
    (s.swapOut co co ra).objects c = s.objects c :=
  setObject_of_ne _ _ h

theorem simulates_yield {s : Shared W M} {p : Private W M} {co : CoroId} {ra : W}
    (h : Simulates L regs s p) (hc : s.control = .inside co)
    (hprog : prog (s.view L) s.mem = .yield ra) (hlo : L.base < s.cpu.rsp) :
    ∃ p', Private.Step L regs prog p .run p' ∧
      Simulates L regs ((s.swapOut co co ra).noteYield co ((s.view L).goOnAt ra)) p' := by
  have hin := h.inside hc
  have htop : L.top = L.base + L.words := rfl
  have hrsp := hin.rsp
  rcases swapOut_inPlace ra rfl hin.rsp hlo hin.copy hin.main hin.elsewhere with
    ⟨hplace, hcpu, hself⟩
  rw [h.mem] at hprog
  refine ⟨_, .yield hin.private_control hprog (by omega), ?_⟩
  refine h.only h.mem
    (fun c hne => ⟨swapOut_objects_of_ne hne, Function.update_of_ne hne ..⟩)
    (fun c hne => ⟨rfl, rfl, Function.update_of_ne hne ..⟩) ⟨?_, hin.started⟩ ?_ ?_ ?_
  · change ((s.swapOut co co ra).objects co).started = true
    rw [hself]
    exact (h.started co).trans hin.started
  · change ((s.swapOut co co ra).objects co).dead = _
    rw [hself]
    exact h.dead co
  · intro v hv
    have hlast : (Function.update s.yielded co (some ((s.view L).goOnAt ra))) co = some v := hv
    rw [Function.update_self] at hlast
    change Function.update p.ctx co _ co = v
    rw [Function.update_self]
    exact Option.some.inj hlast
  · refine ⟨rfl, hcpu, fun _ => ⟨hin.started, ?_⟩, fun c hne hst hd => ?_⟩
    · change InPlace L _ _ (Function.update p.ctx co _ co)
      rw [Function.update_self]
      exact hplace
    · change Parked L ((s.swapOut co co ra).objects c) (Function.update p.ctx co _ c)
      rw [swapOut_objects_of_ne hne, Function.update_of_ne hne]
      exact hin.others c hne hst hd

theorem simulates_finish {s : Shared W M} {p : Private W M} {co : CoroId} {ra : W}
    (h : Simulates L regs s p) (hc : s.control = .inside co)
    (hprog : prog (s.view L) s.mem = .finish ra) (hlo : L.base < s.cpu.rsp) :
    ∃ p', Private.Step L regs prog p .run p' ∧
      Simulates L regs ((s.kill co).swapOut co co ra) p' := by
  have hin := h.inside hc
  have htop : L.top = L.base + L.words := rfl
  have hrsp := hin.rsp
  have hkill : (s.kill co).objects co = { s.objects co with dead := true } := setObject_self ..
  rcases swapOut_inPlace (s := s.kill co) ra hkill hin.rsp hlo hin.copy hin.main hin.elsewhere with
    ⟨-, hcpu, hself⟩
  have hdead : Function.update p.dead co true co = true := Function.update_self ..
  have hobj : ∀ c, c ≠ co → ((s.kill co).swapOut co co ra).objects c = s.objects c :=
    fun c hne => (swapOut_objects_of_ne hne).trans (setObject_of_ne _ _ hne)
  have halive : ∀ c, c ≠ co → Function.update p.dead co true c = p.dead c :=
    fun c hne => Function.update_of_ne hne ..
  rw [h.mem] at hprog
  refine ⟨_, .finish hin.private_control hprog (by omega), ?_⟩
  refine h.only h.mem (fun c hne => ⟨hobj c hne, rfl⟩)
    (fun c hne => ⟨rfl, halive c hne, rfl⟩) ⟨?_, hin.started⟩ ?_ (h.lastYield co) ?_
  · rw [hself]
    exact (h.started co).trans hin.started
  · rw [hself]
    exact hdead.symm
  · refine ⟨rfl, hcpu, fun hd => ?_, fun c hne hst hd => ?_⟩
    · have hself' : Function.update p.dead co true co = false := hd
      rw [hdead] at hself'
      cases hself'
    · rw [hobj c hne]
      exact hin.others c hne hst ((halive c hne).symm.trans hd)

theorem simulates_preserve {s : Shared W M} {p : Private W M} {co : CoroId}
    (h : Simulates L regs s p) (hc : s.control = .returned co)
    (hd : (s.objects co).dead = false) :
    ∃ p', Private.Step L regs prog p .preserve p' ∧
      Simulates L regs { s.preserve L co with control := .idle } p' := by
  rcases h.returned hc with ⟨hret, hself, hothers⟩
  have hdead : p.dead co = false := (h.dead co).symm.trans hd
  rcases hself hdead with ⟨hstarted, hplace⟩
  have hpk := preserve_parked hplace
  have hobj : ∀ c, c ≠ co → (s.preserve L co).objects c = s.objects c :=
    fun c hne => setObject_of_ne _ _ hne
  have hco : (s.preserve L co).objects co = { s.objects co with
      stackCopy := some (window s.stack (s.objects co).state.stackPointer
        (L.top - (s.objects co).state.stackPointer))
      stackCopySize := L.top - (s.objects co).state.stackPointer } := setObject_self ..
  refine ⟨_, .preserve hret, ?_⟩
  refine h.only h.mem (fun c hne => ⟨hobj c hne, rfl⟩) (fun c _ => ⟨rfl, rfl, rfl⟩)
    ⟨?_, hstarted⟩ ?_ (h.lastYield co) ?_
  · change ((s.preserve L co).objects co).started = true
    rw [hco]
    exact (h.started co).trans hstarted
  · change ((s.preserve L co).objects co).dead = p.dead co
    rw [hco]
    exact h.dead co
  · refine ⟨rfl, fun c hst hd' => ?_⟩
    by_cases hne : c = co
    · rw [hne]
      exact hpk
    · change Parked L ((s.preserve L co).objects c) (p.ctx c)
      rw [hobj c hne]
      exact hothers c hne hst hd'

-- The dead coroutine's stack is left where it is.
theorem simulates_preserve_dead {s : Shared W M} {p : Private W M} {co : CoroId}
    (h : Simulates L regs s p) (hc : s.control = .returned co)
    (hd : (s.objects co).dead = true) :
    ∃ p', Private.Step L regs prog p .preserve p' ∧
      Simulates L regs { s with control := .idle } p' := by
  rcases h.returned hc with ⟨hret, -, hothers⟩
  refine ⟨_, .preserve hret, h.mem, h.started, h.dead, h.untouched, h.yielded, h.lastYield,
    rfl, fun c hst hd' => ?_⟩
  have hne : c ≠ co := by
    rintro rfl
    have hboth := (h.dead c).symm.trans hd
    rw [hd'] at hboth
    cases hboth
  exact hothers c hne hst hd'

theorem simulates_main {s : Shared W M} {p : Private W M} (h : Simulates L regs s p)
    (hc : s.control = .idle) (mem : M) :
    ∃ p', Private.Step L regs prog p (.main mem) p' ∧
      Simulates L regs { s with mem := mem } p' := by
  rcases h.idle hc with ⟨hidle, hparked⟩
  refine ⟨_, .main mem hidle, rfl, h.started, h.dead, h.untouched, h.yielded, h.lastYield, ?_⟩
  unfold ControlMatch
  simp only [hidle]
  exact ⟨hc, hparked⟩

-- Every step on the shared stack is a step of the machine with private stacks.
theorem simulates_step {s s' : Shared W M} {p : Private W M} {l : Label W M}
    (h : Simulates L regs s p) (hstep : s.step L prog l = some s') :
    ∃ p', Private.Step L regs prog p l p' ∧ Simulates L regs s' p' := by
  cases l with
  | main mem =>
    simp only [Shared.step] at hstep
    split at hstep
    next hc =>
      obtain rfl := Option.some.inj hstep
      exact simulates_main h hc mem
    next => cases hstep
  | resume co caller =>
    simp only [Shared.step] at hstep
    split at hstep
    next hc =>
      split at hstep
      next hd =>
        obtain rfl := Option.some.inj hstep
        exact ⟨p, .resumeDead caller (h.idle hc).1 ((h.dead co).symm.trans hd), h⟩
      next hd =>
        split at hstep
        next => cases hstep
        next he =>
          obtain rfl := Option.some.inj hstep
          exact simulates_resume h hc (Bool.eq_false_iff.mpr hd) he
    next => cases hstep
  | run =>
    simp only [Shared.step] at hstep
    split at hstep
    next co cur hc hcur =>
      -- `_current` is the coroutine that was resumed last
      obtain rfl : cur = co := by
        rw [(h.inside hc).current] at hcur
        exact (Option.some.inj hcur).symm
      split at hstep
      next fresh cpu words mem hprog =>
        split at hstep
        next hfit =>
          obtain rfl := Option.some.inj hstep
          exact simulates_work h hc hprog hfit
        next => cases hstep
      next ra hprog =>
        split at hstep
        next hlo =>
          obtain rfl := Option.some.inj hstep
          exact simulates_yield h hc hprog hlo
        next => cases hstep
      next ra hprog =>
        split at hstep
        next hlo =>
          obtain rfl := Option.some.inj hstep
          exact simulates_finish h hc hprog hlo
        next => cases hstep
    next => cases hstep
  | preserve =>
    simp only [Shared.step] at hstep
    split at hstep
    next co hc =>
      split at hstep
      next hd =>
        obtain rfl := Option.some.inj hstep
        exact simulates_preserve_dead h hc hd
      next hd =>
        obtain rfl := Option.some.inj hstep
        exact simulates_preserve h hc (Bool.eq_false_iff.mpr hd)
    next => cases hstep

/-! ## Whole runs -/

/-- The main context before any coroutine has run. -/
def Shared.init (regs : CoroId → MachineState W) (cpu : Cpu W) (stack : Nat → W)
    (main : MachineState W) (mem : M) : Shared W M where
  cpu := cpu
  stack := stack
  mem := mem
  objects := fun co => { state := regs co }
  main := main
  current := none
  control := .idle
  yielded := fun _ => none

def Private.init (ctx : CoroId → View W) (cpu : Cpu W) (mem : M) : Private W M where
  ctx := ctx
  started := fun _ => false
  dead := fun _ => false
  main := cpu
  mem := mem
  control := .idle

theorem simulates_init (regs : CoroId → MachineState W) (ctx : CoroId → View W) (cpu : Cpu W)
    (stack : Nat → W) (main : MachineState W) (mem : M) :
    Simulates L regs (Shared.init regs cpu stack main mem) (Private.init ctx cpu mem) where
  mem := rfl
  started := fun _ => rfl
  dead := fun _ => rfl
  untouched := fun _ _ => ⟨rfl, rfl⟩
  yielded := by
    intro _ _ hv
    cases hv
  lastYield := by
    intro _ _ hv
    cases hv
  control := ⟨rfl, fun _ hst => by cases hst⟩

-- A coroutine that has yielded goes on with what it saw then.
theorem Simulates.resumption {s s' : Shared W M} {p : Private W M} {co : CoroId}
    {caller : Cpu W} {v : View W} (h : Simulates L regs s p)
    (hstep : s.step L prog (.resume co caller) = some s') (hd : (s.objects co).dead = false)
    (hv : s.yielded co = some v) : s'.control = .inside co ∧ s'.view L = v := by
  simp only [Shared.step] at hstep
  split at hstep
  next hc =>
    rw [if_neg (by rw [hd]; decide)] at hstep
    split at hstep
    next => cases hstep
    next he =>
      obtain rfl := Option.some.inj hstep
      have hst := h.yielded co v hv
      have hpk := (h.idle hc).2 co hst ((h.dead co).symm.trans hd)
      refine ⟨rfl, ?_⟩
      rw [(resume_parked hpk ((h.started co).trans hst) he).1]
      exact h.lastYield co v hv
  next => cases hstep

/-- Stack copying refines private stacks: every run on the shared stack is, label by label, a run
    of the machine with private stacks, and at each resumption a coroutine has the words, the
    pointers, the resume address and the callee-saved registers it had when it yielded. -/
theorem stackCopy_refines (L : Layout W) (prog : Program W M) (regs : CoroId → MachineState W)
    (ctx : CoroId → View W) (cpu : Cpu W) (stack : Nat → W) (main : MachineState W) (mem : M)
    {ls : List (Label W M)} {s : Shared W M}
    (run : Transition.Run (Transition.ofFun (Shared.step L prog))
      (Shared.init regs cpu stack main mem) ls s) :
    (∃ p, Transition.Run (Private.Step L regs prog) (Private.init ctx cpu mem) ls p ∧
        Simulates L regs s p) ∧
      ∀ co caller s' v, s.step L prog (.resume co caller) = some s' →
        (s.objects co).dead = false → s.yielded co = some v →
        s'.control = .inside co ∧ s'.view L = v := by
  have hinit : Simulates L regs (Shared.init regs cpu stack main mem) (Private.init ctx cpu mem) :=
    simulates_init regs ctx cpu stack main mem
  have hstep : ∀ (s : Shared W M) (p : Private W M) (l : Label W M) (s' : Shared W M),
      Simulates L regs s p → Transition.ofFun (Shared.step L prog) s l s' →
        ∃ p', Private.Step L regs prog p l p' ∧ Simulates L regs s' p' :=
    fun _ _ _ _ h hstep => simulates_step h hstep
  rcases run.simulate hstep hinit with ⟨p, hrun, hsim⟩
  exact ⟨⟨p, hrun, hsim⟩, fun _ _ _ _ hstep hd hv => hsim.resumption hstep hd hv⟩

/-- Two coroutines that claim one word and write two below the frame, yield, and then finish. -/
def twoFrames : Program Nat Unit := fun v _ =>
  if v.cpu.rip = 100 then
    .work 1 { v.cpu with rip := 101, rbx := v.stack.getD 1 0 + 40 }
      ([v.stack.getD 1 0 + 70, v.stack.getD 1 0 + 80] ++ v.stack) ()
  else if v.cpu.rip = 101 then .yield 102
  else .finish 103

def smallLayout : Layout Nat where
  base := 20
  words := 12
  room := by decide
  null := 0
  wrap0 := 100
  this := fun co => co
  addr := fun a => a

def mainCpu : Cpu Nat :=
  { rsp := 90, rbp := 91, rip := 5, rbx := 0, r12 := 1, r13 := 2, r14 := 3, r15 := 4 }

def zeroState : MachineState Nat :=
  { stackPointer := 0, framePointer := 0, insnPointer := 0, ebx := 0, r12 := 0, r13 := 0,
    r14 := 0, r15 := 0 }

-- The second coroutine is created and overwrites the first one's words while that is suspended.
def twoFramesRun : List (Label Nat Unit) :=
  [.resume 1 mainCpu, .run, .run, .preserve, .resume 2 mainCpu, .run, .run, .preserve]

theorem stackCopy_refines_two_frames :
    ∃ s, Transition.exec (Shared.step smallLayout twoFrames)
        (Shared.init (fun _ => zeroState) mainCpu (fun _ => 9) zeroState ()) twoFramesRun = some s ∧
      (∃ s', s.step smallLayout twoFrames (.resume 1 mainCpu) = some s') ∧
      ∀ s', s.step smallLayout twoFrames (.resume 1 mainCpu) = some s' →
        s'.view smallLayout =
          ⟨{ rsp := 24, rbp := 27, rip := 102, rbx := 41, r12 := 0, r13 := 0, r14 := 0, r15 := 0 },
            [9, 71, 81, 0, 1, 9, 9, 9]⟩ := by
  refine ⟨_, rfl, ⟨_, rfl⟩, fun s' hstep => ?_⟩
  have hrun : Transition.Run (Transition.ofFun (Shared.step smallLayout twoFrames))
      (Shared.init (fun _ => zeroState) mainCpu (fun _ => 9) zeroState ()) twoFramesRun _ :=
    Transition.run_of_exec rfl
  exact ((stackCopy_refines smallLayout twoFrames (fun _ => zeroState)
    (fun co => firstView smallLayout zeroState co []) mainCpu (fun _ => 9) zeroState () hrun).2
      1 mainCpu s' _ hstep rfl rfl).2

end Coropp
