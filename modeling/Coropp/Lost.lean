import Coropp.WakeCauses

/-!
# When a coroutine is lost

A coroutine that was launched and has not ended is lost when it neither runs nor has an entry
anywhere: nothing will ever resume it.  No step loses anyone, but for a wait on a descriptor that
someone already waits on in the same direction.
-/

namespace Coropp

open Transition

namespace System

variable {T : Type} {sys sys' : System T} {a : SysAct T}

/-- Whoever was launched and has not ended runs or has an entry. -/
def NobodyLost (sys : System T) : Prop :=
  ∀ c, sys.launched c = true → (sys.sched.coros c).dead = false →
    sys.running = some c ∨ 0 < sys.tokens c

/-- The step is not a wait on a descriptor that has a waiter in the same direction. -/
def WaitsAlone (sys : System T) : SysAct T → Prop
  | .block (.waitFor dir fd) => (sys.poller.waitSet dir)[fd]? = none
  | _ => True

instance (sys : System T) : (a : SysAct T) → Decidable (sys.WaitsAlone a)
  | .block (.waitFor dir fd) => inferInstanceAs (Decidable ((sys.poller.waitSet dir)[fd]? = none))
  | .enter .. | .test | .next .. | .finish | .pollReturn .. | .call _ | .block (.sleep ..)
  | .block (.cvWait _) | .block (.latchWait _) | .block (.pop _) => .isTrue trivial

theorem nobodyLost_iff : sys.NobodyLost ↔ ∀ c, sys.capacity c ≤ sys.held c := by
  unfold NobodyLost capacity held
  refine forall_congr' fun c => ?_
  by_cases hr : sys.running = some c
  · have hruns := Machine.runs_of_running hr c
    rw [ind_self] at hruns
    split
    · exact iff_of_true (fun _ _ => .inl hr) (by omega)
    · exact iff_of_true (fun _ _ => .inl hr) (Nat.zero_le _)
  · have hruns : sys.toMachine.runs c = 0 := by
      unfold Machine.runs
      split
      next co hco =>
        apply ind_of_ne
        rintro rfl
        exact hr hco
      next => rfl
    rw [hruns, Nat.add_zero]
    split
    next hcap => exact ⟨fun h => (h hcap.1 hcap.2).resolve_left hr, fun h _ _ => .inr h⟩
    next hcap => exact iff_of_true (fun hl hd => absurd ⟨hl, hd⟩ hcap) (Nat.zero_le _)

-- A step that takes nothing from anyone, and launches and ends nobody.
theorem NobodyLost.keep (h : sys.NobodyLost) (hheld : ∀ c, sys'.held c = sys.held c)
    (hl : sys'.launched = sys.launched)
    (hd : ∀ c, (sys'.sched.coros c).dead = (sys.sched.coros c).dead) : sys'.NobodyLost := by
  rw [nobodyLost_iff] at h ⊢
  intro c
  have hcap : sys'.capacity c = sys.capacity c := by
    unfold capacity
    rw [hl, hd]
  rw [hcap, hheld]
  exact h c

/-! ## Calls that do not block -/

theorem held_pushed {es : List PendingEntry} (hm : sys'.toMachine = ⟨sys.sched.push es, sys.pc⟩)
    (hp : sys'.poller = sys.poller)
    (hcount : ∀ c, (es.map Prod.fst).count c + sys'.queues c = sys.queues c) (c : CoroId) :
    sys'.held c = sys.held c := by
  have hq := hcount c
  unfold held tokens
  rw [hm, hp, Machine.tokens_push, Machine.runs_congr sys.pc rfl]
  change sys.toMachine.tokens c + _ + _ + _ + sys.toMachine.runs c = _
  omega

theorem NobodyLost.pushed (h : sys.NobodyLost) {es : List PendingEntry}
    (hm : sys'.toMachine = ⟨sys.sched.push es, sys.pc⟩) (hp : sys'.poller = sys.poller)
    (hl : sys'.launched = sys.launched)
    (hcount : ∀ c, (es.map Prod.fst).count c + sys'.queues c = sys.queues c) :
    sys'.NobodyLost := by
  apply h.keep (held_pushed hm hp hcount) hl
  have hs : sys'.sched = sys.sched.push es := by rw [hm]
  intro c
  rw [hs]
  rfl

theorem NobodyLost.same (h : sys.NobodyLost) (hm : sys'.toMachine = sys.toMachine)
    (hp : sys'.poller = sys.poller) (hl : sys'.launched = sys.launched)
    (hq : ∀ c, sys'.queues c = sys.queues c) : sys'.NobodyLost := by
  have hnil : sys'.toMachine = ⟨sys.sched.push [], sys.pc⟩ := by rw [hm, Sched.push_nil]
  exact h.pushed hnil hp hl fun c => by rw [hq c, List.map_nil, List.count_nil, Nat.zero_add]

-- A waker takes the first one off its queue.
theorem count_woken {α : Type} {f : α → List CoroId} {l : List α} {k : Nat} {x y : α}
    (hk : l[k]? = some x) (hy : f y = (f x).tail) (arg : Arg) (c : CoroId) :
    ((((f x).take 1).map fun co => ((co, arg) : PendingEntry)).map Prod.fst).count c +
      queued f (l.set k y) c = queued f l c := by
  have hset := queued_set f hk y c
  have hsplit := count_take_tail (f x) c
  rw [map_fst_entries]
  rw [hy] at hset
  omega

theorem NobodyLost.launch (h : sys.NobodyLost) {co : CoroId} (arg : Arg)
    (halive : (sys.sched.coros co).dead = false) :
    { sys.withSched (sys.sched.schedule co arg).state with
      launched := Function.update sys.launched co true }.NobodyLost := by
  rw [Sched.schedule_alive halive, Outcome.state_returned]
  intro c hl hd
  by_cases hc : c = co
  · right
    apply queued_tokens (e := (c, arg))
    rw [hc]
    exact .inr (List.mem_append_right _ (.head _))
  · change Function.update sys.launched co true c = true at hl
    rw [Function.update_of_ne hc] at hl
    rcases h c hl hd with hr | hpos
    · exact .inl ((Machine.running_congr sys.pc rfl).trans hr)
    · right
      refine hpos.trans_le ?_
      have hpush := Machine.tokens_push sys.sched sys.pc [(co, arg)] c
      unfold tokens
      change sys.toMachine.tokens c + _ + sys.queues c ≤
        Machine.tokens ⟨sys.sched.push [(co, arg)], sys.pc⟩ c + _ + sys.queues c
      rw [hpush]
      change sys.toMachine.tokens c + _ + _ ≤ sys.toMachine.tokens c + _ + _ + _
      simp only [withSched]
      omega

theorem NobodyLost.call (h : sys.NobodyLost) (ht : OneToken sys) {c : UserCall T}
    (hstep : sys.call c = some sys') : sys'.NobodyLost := by
  cases c with
  | newCondVar =>
    obtain rfl := Option.some.inj hstep
    refine h.same rfl rfl rfl fun c => ?_
    have hempty := queued_append_empty (f := CondVar.waiting) (x := {}) rfl sys.cvs c
    simp only [queues, hempty]
  | newLatch =>
    obtain rfl := Option.some.inj hstep
    refine h.same rfl rfl rfl fun c => ?_
    have hempty := queued_append_empty (f := fun l : Latch => l.cv.waiting) (x := {}) rfl sys.latches c
    simp only [queues, hempty]
  | newFifo =>
    obtain rfl := Option.some.inj hstep
    refine h.same rfl rfl rfl fun c => ?_
    have hempty := queued_append_empty (f := fun f : Fifo T => f.cv.waiting) (x := {}) rfl sys.fifos c
    simp only [queues, hempty]
  | launch co arg =>
    rcases call_launch ht hstep with ⟨-, halive, rfl⟩
    have hlaunch := h.launch arg halive
    rw [Sched.schedule_alive halive] at hlaunch
    exact hlaunch
  | exit =>
    obtain rfl := Option.some.inj hstep
    exact h.keep (fun _ => rfl) rfl fun _ => rfl
  | wakeOne k arg =>
    rcases Option.map_eq_some_iff.mp hstep with ⟨cv, hk, rfl⟩
    rcases CondVar.wakeOne_alive (ht.alive_cv hk) arg with ⟨ret, hwake⟩
    rw [hwake]
    refine h.pushed rfl rfl rfl fun c => ?_
    have hwoken := count_woken (f := CondVar.waiting) (y := ⟨cv.waiting.tail⟩) hk rfl arg c
    simp only [queues, withSched, Outcome.state_returned]
    omega
  | wakeAll k arg =>
    rcases Option.map_eq_some_iff.mp hstep with ⟨cv, hk, rfl⟩
    rcases CondVar.wakeOne_alive (ht.alive_cv hk) arg with ⟨ret, hwake⟩
    rw [CondVar.wakeAll_eq_wakeOne, hwake]
    refine h.pushed rfl rfl rfl fun c => ?_
    have hwoken := count_woken (f := CondVar.waiting) (y := ⟨cv.waiting.tail⟩) hk rfl arg c
    simp only [queues, withSched, Outcome.state_returned]
    omega
  | latchWakeAll k =>
    rcases Option.map_eq_some_iff.mp hstep with ⟨l, hk, rfl⟩
    rcases CondVar.wakeOne_alive (ht.alive_latch hk) 0 with ⟨ret, hwake⟩
    rw [Latch.wakeAll, CondVar.wakeAll_eq_wakeOne, hwake]
    refine h.pushed rfl rfl rfl fun c => ?_
    have hwoken := count_woken (f := fun l : Latch => l.cv.waiting)
      (y := ⟨⟨l.cv.waiting.tail⟩, true⟩) hk rfl 0 c
    simp only [queues, withSched, Outcome.map_returned, Outcome.state_returned]
    omega
  | push k x =>
    rcases Option.map_eq_some_iff.mp hstep with ⟨f, hk, rfl⟩
    rcases CondVar.wakeOne_alive (ht.alive_fifo hk) 0 with ⟨ret, hwake⟩
    rw [Fifo.push, hwake]
    refine h.pushed rfl rfl rfl fun c => ?_
    have hwoken := count_woken (f := fun f : Fifo T => f.cv.waiting)
      (y := ⟨⟨f.cv.waiting.tail⟩, f.q ++ [x]⟩) hk rfl 0 c
    simp only [queues, withSched, Outcome.map_returned, Outcome.state_returned]
    omega

/-! ## Calls that block -/

-- The running coroutine leaves one entry in a container and yields.
theorem held_blocked {i : Nat} {co : CoroId} (hpc : sys.pc = .inside i)
    (hr : sys.running = some co) {es : List Event}
    (hm : sys'.toMachine =
      ⟨({ sys.sched with events := es } : Sched).yield co 0, .staging (i + 1)⟩)
    (hcount : ∀ c, (es.map Event.coro).count c + sys'.poller.tokens c + sys'.queues c =
      (sys.sched.events.map Event.coro).count c + sys.poller.tokens c + sys.queues c + ind co c)
    (c : CoroId) : sys'.held c = sys.held c := by
  have hq := hcount c
  have hs : sys'.sched = ({ sys.sched with events := es } : Sched).yield co 0 := by rw [hm]
  have hpc' : sys'.pc = .staging (i + 1) := by rw [hm]
  have hruns : sys'.toMachine.runs c = 0 := Machine.runs_of_staging hpc' c
  have hrest : sys.toMachine.unprocessed = sys.sched.staging.drop (i + 1) :=
    Machine.unprocessed_inside hpc
  have hrest' : sys'.toMachine.unprocessed = sys.sched.staging.drop (i + 1) := by
    rw [hm]
    rfl
  have hruns' := Machine.runs_of_running hr c
  unfold held tokens Machine.tokens
  rw [hruns, hruns', hrest, hrest', hs]
  change (sys.sched.pending.map Prod.fst).count c + _ + (es.map Event.coro).count c + _ + _ + _ = _
  omega

theorem NobodyLost.blocked (h : sys.NobodyLost) {i : Nat} {co : CoroId} (hpc : sys.pc = .inside i)
    (hr : sys.running = some co) (es : List Event)
    (hm : sys'.toMachine =
      ⟨({ sys.sched with events := es } : Sched).yield co 0, .staging (i + 1)⟩)
    (hl : sys'.launched = sys.launched)
    (hcount : ∀ c, (es.map Event.coro).count c + sys'.poller.tokens c + sys'.queues c =
      (sys.sched.events.map Event.coro).count c + sys.poller.tokens c + sys.queues c + ind co c) :
    sys'.NobodyLost := by
  apply h.keep (held_blocked hpc hr hm hcount) hl
  have hs : sys'.sched = ({ sys.sched with events := es } : Sched).yield co 0 := by rw [hm]
  intro c
  rw [hs]
  exact Sched.yield_dead _ co 0 c

-- One waiter more in a queue.
theorem queued_join {α : Type} {f : α → List CoroId} {l : List α} {k : Nat} {x y : α} {co : CoroId}
    (hk : l[k]? = some x) (hy : f y = f x ++ [co]) (c : CoroId) :
    queued f (l.set k y) c = queued f l c + ind co c := by
  have hset := queued_set f hk y c
  have happ := count_append_ind co c (f x)
  rw [hy] at hset
  omega

theorem NobodyLost.popTest (h : sys.NobodyLost) (ht : OneToken sys) {i : Nat} {co : CoroId}
    (hpc : sys.pc = .inside i) (hr : sys.running = some co) (k : Nat) :
    (sys.popTest co k i).NobodyLost := by
  unfold System.popTest
  cases hk : sys.fifos[k]? with
  | none => exact h
  | some f =>
    dsimp only
    cases htest : f.test with
    | none =>
      rw [CondVar.wait_current (ht.current hpc hr)]
      refine h.blocked hpc hr sys.sched.events rfl rfl fun c => ?_
      have hjoin := queued_join (f := fun f : Fifo T => f.cv.waiting)
        (y := { f with cv := ⟨f.cv.waiting ++ [co]⟩ }) hk rfl c
      simp only [queues, yielded]
      omega
    | some r =>
      rcases r with ⟨x, f'⟩
      refine h.same rfl rfl rfl fun c => ?_
      have hset := queued_set (fun f : Fifo T => f.cv.waiting) hk f' c
      simp only [queues, (Fifo.test_some htest).2] at hset ⊢
      omega

theorem tokens_setWaitFor_new {w : WaitSets} {dir : Direction} {fd : Fd}
    (h : (w.waitSet dir)[fd]? = none) (co c : CoroId) :
    (w.setWaitFor dir fd co).tokens c = w.tokens c + ind co c := by
  unfold WaitSets.tokens
  have hperm := (WaitSets.registrations_setWaitFor_new co h).map Wait.co
  rw [hperm.count_eq, List.map_cons, count_cons_ind]

theorem NobodyLost.block (h : sys.NobodyLost) (ht : OneToken sys) {i : Nat} {co : CoroId}
    (hpc : sys.pc = .inside i) (hr : sys.running = some co) {c : WaitCall}
    (halone : sys.WaitsAlone (.block c)) (hstep : sys.block co i c = some sys') :
    sys'.NobodyLost := by
  have hcur := ht.current hpc hr
  cases block_blocks hcur hstep with
  | sleep now msec =>
    refine h.blocked hpc hr (⟨sleepDeadline now msec, 0, co⟩ :: sys.sched.events) rfl rfl
      fun c => ?_
    rw [List.map_cons, count_cons_ind]
    change _ + sys.poller.tokens c + sys.queues c = _
    dsimp only
    omega
  | waitFor dir fd =>
    refine h.blocked hpc hr sys.sched.events rfl rfl fun c => ?_
    have hset := tokens_setWaitFor_new halone co c
    change _ + (sys.poller.setWaitFor dir fd co).tokens c + sys.queues c = _
    omega
  | @cvWait k cv hk =>
    refine h.blocked hpc hr sys.sched.events rfl rfl fun c => ?_
    have hjoin := queued_join (f := CondVar.waiting) (y := ⟨cv.waiting ++ [co]⟩) hk rfl c
    simp only [queues, yielded]
    omega
  | latchDone hk hdone => exact h
  | @latchWait k l hk hdone =>
    refine h.blocked hpc hr sys.sched.events rfl rfl fun c => ?_
    have hjoin := queued_join (f := fun l : Latch => l.cv.waiting)
      (y := { l with cv := ⟨l.cv.waiting ++ [co]⟩ }) hk rfl c
    simp only [queues, yielded]
    omega
  | pop k => exact h.popTest ht hpc hr k

/-! ## The scheduler -/

theorem NobodyLost.move (h : sys.NobodyLost) (hpc : sys.pc.inRound = false) {s : Sched} {pc : Pc}
    (hpc' : pc.inRound = false) (hs : sys.sched.SameTokens s) :
    (sys.withMachine ⟨s, pc⟩).NobodyLost := by
  refine h.keep (fun c => ?_) rfl fun c => ?_
  · have hheld := (hs.held pc c).trans (Machine.held_between hpc hpc' c)
    unfold held tokens
    unfold Machine.held at hheld
    change Machine.tokens ⟨s, pc⟩ c + sys.poller.tokens c + sys.queues c +
      Machine.runs ⟨s, pc⟩ c = Machine.tokens ⟨sys.sched, sys.pc⟩ c + sys.poller.tokens c +
        sys.queues c + Machine.runs ⟨sys.sched, sys.pc⟩ c
    omega
  · change (s.coros c).dead = _
    rw [hs.coros]

theorem NobodyLost.loopHead (h : sys.NobodyLost) (ht : OneToken sys) (rule : TopRule) (tv : Timeval)
    (hpc : sys.pc.inRound = false) :
    (sys.withMachine (Machine.loopHead rule tv sys.sched)).NobodyLost := by
  rcases Sched.scheduleEvents_same rule tv ht.alive_events with ⟨s', hs, hsame⟩
  unfold Machine.loopHead
  split
  · exact h.move hpc rfl (Sched.SameTokens.refl _)
  · rw [hs]
    exact h.move hpc rfl hsame

theorem NobodyLost.test (h : sys.NobodyLost) (ht : OneToken sys) {m : Machine}
    (hstep : sys.toMachine.step .test = some m) : (sys.withMachine m).NobodyLost := by
  rcases Machine.step_test hstep with ⟨hpc, hm⟩
  have hround : sys.pc.inRound = false := by
    rw [hpc]
    rfl
  rcases hm with ⟨rfl, -⟩ | ⟨rfl, -⟩ | ⟨rfl, -⟩
  · refine h.keep (fun c => ?_) rfl fun _ => rfl
    have hruns : Machine.runs ⟨sys.sched.swapLists, .staging 0⟩ c = 0 :=
      Machine.runs_of_staging rfl c
    unfold held tokens Machine.tokens
    rw [Machine.unprocessed_between hround, Machine.runs_of_between hround]
    change (sys.sched.staging.map Prod.fst).count c +
      ((sys.sched.pending.drop 0).map Prod.fst).count c +
      (sys.sched.events.map Event.coro).count c + sys.poller.tokens c + sys.queues c +
      Machine.runs ⟨sys.sched.swapLists, .staging 0⟩ c = _
    rw [hruns, ht.between hround, List.drop_zero]
    simp only [List.map_nil, List.count_nil]
    omega
  · exact h.move hround rfl (Sched.SameTokens.refl _)
  · exact h.move hround rfl (Sched.SameTokens.refl _)

-- Resuming an entry turns the coroutine's token into running.
theorem NobodyLost.nextEntry (h : sys.NobodyLost) (ht : OneToken sys) (rule : TopRule) (tv : Timeval)
    {i : Nat} (hpc : sys.pc = .staging i) :
    (sys.withMachine (sys.toMachine.nextEntry rule tv i)).NobodyLost := by
  have hrest : sys.toMachine.unprocessed = sys.sched.staging.drop i :=
    Machine.unprocessed_staging hpc
  have hruns : ∀ c, sys.toMachine.runs c = 0 := Machine.runs_of_staging hpc
  cases hget : sys.sched.staging[i]? with
  | none =>
    obtain ⟨s', hs, hsame⟩ := Sched.scheduleEvents_same rule tv (s := { sys.sched with staging := [] })
      ht.alive_events
    rw [Machine.nextEntry_none hget, hs]
    refine h.keep (fun c => ?_) rfl fun c => ?_
    · have hcount := hsame.count c
      have hruns' : Machine.runs ⟨s', .runPending⟩ c = 0 := Machine.runs_of_between rfl c
      unfold held tokens Machine.tokens
      rw [hrest, Machine.drop_of_none hget, hruns]
      change (s'.pending.map Prod.fst).count c + 0 + (s'.events.map Event.coro).count c +
        sys.poller.tokens c + sys.queues c + Machine.runs ⟨s', .runPending⟩ c = _
      rw [hruns']
      simp only [List.map_nil, List.count_nil]
      dsimp only at hcount
      omega
    · change (s'.coros c).dead = _
      rw [hsame.coros]
  | some entry =>
    rcases entry with ⟨co, arg⟩
    have hdrop := Machine.drop_of_some hget
    have halive : (sys.sched.coros co).dead = false := by
      apply ht.alive
      apply queued_tokens (e := (co, arg))
      left
      rw [hrest, hdrop]
      exact .head _
    have hrun : Machine.running ⟨sys.sched.switchTo co arg, .inside i⟩ = some co := by
      change (sys.sched.staging[i]?).map Prod.fst = some co
      rw [hget]
      rfl
    rw [Machine.nextEntry_some hget, Sched.resume_alive halive]
    refine h.keep (fun c => ?_) rfl fun c => Sched.switchTo_dead _ co arg c
    have hruns' := Machine.runs_of_running hrun c
    unfold held tokens Machine.tokens
    rw [hrest, hdrop, List.map_cons, count_cons_ind, hruns]
    change (sys.sched.pending.map Prod.fst).count c +
      ((sys.sched.staging.drop (i + 1)).map Prod.fst).count c +
      (sys.sched.events.map Event.coro).count c + sys.poller.tokens c + sys.queues c +
      Machine.runs ⟨sys.sched.switchTo co arg, .inside i⟩ c = _
    rw [hruns']
    dsimp only
    omega

theorem NobodyLost.next (h : sys.NobodyLost) (ht : OneToken sys) (rule : TopRule) (tv : Timeval)
    {i : Nat} (hpc : sys.pc = .staging i) :
    ((sys.withMachine (sys.toMachine.nextEntry rule tv i)).goOn i).NobodyLost := by
  have hresumed := h.nextEntry ht rule tv hpc
  unfold System.goOn
  rcases ht.nextEntry rule tv hpc with ⟨hnext, hin | hnone⟩
  · rcases hnext.inside i hin with ⟨co, hr, hcur⟩
    rw [hr]
    dsimp only
    cases (sys.withMachine (sys.toMachine.nextEntry rule tv i)).popping co with
    | none => exact hresumed
    | some k => exact hresumed.popTest hnext hin hr k
  · rw [show (sys.withMachine (sys.toMachine.nextEntry rule tv i)).running = none from hnone]
    exact hresumed

-- Whoever ends needs no entry.
theorem NobodyLost.finish (h : sys.NobodyLost) {i : Nat} {co : CoroId} (hpc : sys.pc = .inside i)
    (hr : sys.running = some co) :
    (sys.withMachine ⟨sys.sched.finish co, .staging (i + 1)⟩).NobodyLost := by
  rcases Machine.finish_eq sys.sched co with ⟨coros, hfin, -⟩
  have hdead := sys.sched.finish_dead co
  intro c hl hd
  change ((sys.sched.finish co).coros c).dead = false at hd
  rw [hdead] at hd
  split at hd
  · cases hd
  next hc =>
    rcases h c hl hd with hrun | hpos
    · rw [hr] at hrun
      exact absurd (Option.some.inj hrun).symm hc
    · right
      unfold tokens Machine.tokens at hpos ⊢
      rw [Machine.unprocessed_inside hpc] at hpos
      rw [hfin]
      exact hpos

theorem NobodyLost.pollReturn (h : sys.NobodyLost) (ht : OneToken sys) (hpc : sys.pc = .polling)
    {rule : TopRule} {tv : Timeval} {r : PollResponse}
    (hstep : sys.pollReturn rule tv r = some sys') : sys'.NobodyLost := by
  rcases pollReturn_alive ht hstep with ⟨p, woken, rfl, -, -, -, hcount⟩
  have hround : sys.pc.inRound = false := by
    rw [hpc]
    rfl
  have hpolled :
      { sys with sched := sys.sched.push (woken.map Wait.entry), poller := p }.NobodyLost := by
    refine h.keep (fun c => ?_) rfl fun _ => rfl
    have hsum := hcount c
    have hentries : (woken.map Wait.entry).map Prod.fst = woken.map Wait.co := by
      rw [List.map_map]
      rfl
    unfold held tokens
    change Machine.tokens ⟨sys.sched.push (woken.map Wait.entry), sys.pc⟩ c +
      p.toWaitSets.tokens c + sys.queues c +
      Machine.runs ⟨sys.sched.push (woken.map Wait.entry), sys.pc⟩ c = _
    rw [Machine.tokens_push, hentries, Machine.runs_congr sys.pc rfl]
    change sys.toMachine.tokens c + _ + _ + _ + sys.toMachine.runs c = _
    omega
  exact hpolled.loopHead (ht.polled hpc hcount) rule tv hround

theorem NobodyLost.step (h : sys.NobodyLost) (ht : OneToken sys) (halone : sys.WaitsAlone a)
    (hstep : sys.step a = some sys') : sys'.NobodyLost := by
  cases a with
  | enter rule tv =>
    rcases step_enter hstep with ⟨hpc, rfl⟩
    exact h.loopHead ht rule tv (by rw [hpc]; rfl)
  | test =>
    rcases step_test hstep with ⟨m, hm, rfl⟩
    exact h.test ht hm
  | next rule tv =>
    rcases step_next hstep with ⟨i, hpc, rfl⟩
    exact h.next ht rule tv hpc
  | finish =>
    rcases step_finish hstep with ⟨i, co, hpc, hr, rfl⟩
    exact h.finish hpc hr
  | pollReturn rule tv r =>
    rcases step_pollReturn hstep with ⟨hpc, hpoll⟩
    exact h.pollReturn ht hpc hpoll
  | call c => exact h.call ht (step_call hstep).2
  | block c =>
    rcases step_block hstep with ⟨i, co, hpc, hr, hblock⟩
    exact h.block ht hpc hr halone hblock

end System

end Coropp
