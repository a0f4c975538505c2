import Coropp.Tokens

/-!
# A fifo loses no wake-up

The consumers of a fifo are in its condition variable's queue, or they have been woken and wait for
their turn.  As long as one is queued, there are at least as many woken ones as items.
-/

namespace Coropp

-- The coroutines that wait for their turn.
def Machine.entries (m : Machine) : List CoroId :=
  m.sched.pending.map Prod.fst ++ m.unprocessed.map Prod.fst

namespace System

variable {T : Type} {sys sys' : System T}

/-- The consumers of fifo `k` that have been woken and not yet resumed. -/
def woken (sys : System T) (k : Nat) : Nat :=
  sys.entries.countP fun c => sys.popping c = some k

structure Woken (sys : System T) : Prop where
  consumers : ∀ k f, sys.fifos[k]? = some f → ∀ c ∈ f.cv.waiting, sys.popping c = some k
  enough : ∀ k f, sys.fifos[k]? = some f → f.cv.waiting ≠ [] → f.q.length ≤ sys.woken k

-- More coroutines may get their turn.
theorem Woken.keep (h : Woken sys) (hf : sys'.fifos = sys.fifos) (hp : sys'.popping = sys.popping)
    (hw : ∀ k, sys.woken k ≤ sys'.woken k) : Woken sys' where
  consumers := by
    rw [hf, hp]
    exact h.consumers
  enough := by
    intro k f hk hne
    rw [hf] at hk
    exact (h.enough k f hk hne).trans (hw k)

theorem woken_congr (he : sys'.toMachine.entries = sys.toMachine.entries)
    (hp : sys'.popping = sys.popping) (k : Nat) : sys.woken k ≤ sys'.woken k := by
  unfold woken
  rw [he, hp]

theorem entries_push (s : Sched) (pc : Pc) (es : List PendingEntry) :
    (Machine.entries ⟨s.push es, pc⟩).Perm (es.map Prod.fst ++ Machine.entries ⟨s, pc⟩) := by
  unfold Machine.entries
  rw [Machine.unprocessed_congr pc (show (s.push es).staging = s.staging from rfl)]
  simp only [Sched.push, List.map_append]
  exact (List.perm_append_comm.append_right _).trans (by rw [List.append_assoc])

theorem woken_push {es : List PendingEntry} (hm : sys'.toMachine = ⟨sys.sched.push es, sys.pc⟩)
    (hp : sys'.popping = sys.popping) (k : Nat) :
    sys'.woken k =
      (es.map Prod.fst).countP (fun c => sys.popping c = some k) + sys.woken k := by
  unfold woken
  rw [hm, hp, (entries_push sys.sched sys.pc es).countP_eq, List.countP_append]

/-! ## Calls -/

theorem Woken.pushed (h : Woken sys) (es : List PendingEntry)
    (hm : sys'.toMachine = ⟨sys.sched.push es, sys.pc⟩) (hf : sys'.fifos = sys.fifos)
    (hp : sys'.popping = sys.popping) : Woken sys' := by
  apply h.keep hf hp
  intro k
  rw [woken_push hm hp]
  omega

-- A push adds one item and wakes one waiter, if there is one.
theorem Woken.pushItem (h : Woken sys) {k : Nat} {f : Fifo T} {x : T}
    (hk : sys.fifos[k]? = some f)
    (hm : sys'.toMachine =
      ⟨sys.sched.push ((f.cv.waiting.take 1).map fun co => (co, 0)), sys.pc⟩)
    (hf : sys'.fifos = sys.fifos.set k ⟨⟨f.cv.waiting.tail⟩, f.q ++ [x]⟩)
    (hp : sys'.popping = sys.popping) : Woken sys' := by
  constructor
  · intro j g hj c hc
    rw [hf] at hj
    rw [hp]
    rcases Maps.set_eq hj with ⟨rfl, rfl⟩ | ⟨-, hold⟩
    · exact h.consumers j f hk c (List.mem_of_mem_tail hc)
    · exact h.consumers j g hold c hc
  · intro j g hj hne
    rw [woken_push hm hp, map_fst_entries]
    rw [hf] at hj
    rcases Maps.set_eq hj with ⟨rfl, rfl⟩ | ⟨-, hsame⟩
    · cases hw : f.cv.waiting with
      | nil =>
        rw [hw] at hne
        exact absurd rfl hne
      | cons c rest =>
        have hold := h.enough j f hk (by simp [hw])
        have hpop := h.consumers j f hk c (by simp [hw])
        simp only [List.length_append, List.length_singleton, List.take_succ_cons, List.take_zero,
          List.countP_singleton, hpop, decide_true, if_true]
        omega
    · have hold := h.enough j g hsame hne
      omega

-- Nobody waits at a new fifo.
theorem Woken.newFifo (h : Woken sys) :
    Woken { sys with fifos := sys.fifos ++ [(⟨{}, []⟩ : Fifo T)] } := by
  have hget : ∀ (k : Nat) (f : Fifo T), (sys.fifos ++ [(⟨{}, []⟩ : Fifo T)])[k]? = some f →
      sys.fifos[k]? = some f ∨ f.cv.waiting = [] := by
    intro k f hk
    by_cases hlt : k < sys.fifos.length
    · rw [List.getElem?_append_left hlt] at hk
      exact .inl hk
    · rw [List.getElem?_append_right (by omega)] at hk
      obtain rfl := List.mem_singleton.mp (List.mem_of_getElem? hk)
      exact .inr rfl
  constructor
  · intro k f hk c hc
    rcases hget k f hk with hold | hnil
    · exact h.consumers k f hold c hc
    · rw [hnil] at hc
      cases hc
  · intro k f hk hne
    exact h.enough k f ((hget k f hk).resolve_right hne) hne

theorem Woken.call (h : Woken sys) (ht : OneToken sys) {c : UserCall T}
    (hstep : sys.call c = some sys') : Woken sys' := by
  cases c with
  | newCondVar =>
    obtain rfl := Option.some.inj hstep
    exact h.keep rfl rfl (woken_congr rfl rfl)
  | newLatch =>
    obtain rfl := Option.some.inj hstep
    exact h.keep rfl rfl (woken_congr rfl rfl)
  | newFifo =>
    obtain rfl := Option.some.inj hstep
    exact h.newFifo
  | launch co arg =>
    simp only [System.call] at hstep
    split at hstep
    · cases hstep
    next hnew =>
      obtain rfl := Option.some.inj hstep
      have halive : (sys.sched.coros co).dead = false := by
        by_contra hd
        exact hnew (ht.dead co (by simpa using hd))
      rw [Sched.schedule_alive halive]
      exact h.pushed [(co, arg)] rfl rfl rfl
  | exit =>
    obtain rfl := Option.some.inj hstep
    exact h.keep rfl rfl (woken_congr rfl rfl)
  | wakeOne k arg =>
    rcases Option.map_eq_some_iff.mp hstep with ⟨cv, hk, rfl⟩
    rcases CondVar.wakeOne_alive (ht.alive_cv hk) arg with ⟨ret, hwake⟩
    rw [hwake]
    exact h.pushed ((cv.waiting.take 1).map fun co => (co, arg)) rfl rfl rfl
  | wakeAll k arg =>
    rcases Option.map_eq_some_iff.mp hstep with ⟨cv, hk, rfl⟩
    rcases CondVar.wakeOne_alive (ht.alive_cv hk) arg with ⟨ret, hwake⟩
    rw [CondVar.wakeAll_eq_wakeOne, hwake]
    exact h.pushed ((cv.waiting.take 1).map fun co => (co, arg)) rfl rfl rfl
  | latchWakeAll k =>
    rcases Option.map_eq_some_iff.mp hstep with ⟨l, hk, rfl⟩
    rcases CondVar.wakeOne_alive (ht.alive_latch hk) 0 with ⟨ret, hwake⟩
    rw [Latch.wakeAll, CondVar.wakeAll_eq_wakeOne, hwake]
    exact h.pushed ((l.cv.waiting.take 1).map fun co => (co, 0)) rfl rfl rfl
  | push k x =>
    rcases Option.map_eq_some_iff.mp hstep with ⟨f, hk, rfl⟩
    rcases CondVar.wakeOne_alive (ht.alive_fifo hk) 0 with ⟨ret, hwake⟩
    rw [Fifo.push, hwake]
    exact h.pushItem hk rfl rfl rfl

/-! ## The running coroutine -/

-- A coroutine without tokens is nowhere.
theorem not_entry {c : CoroId} (h : sys.tokens c = 0) : c ∉ sys.entries := by
  unfold tokens Machine.tokens at h
  unfold Machine.entries
  rw [List.mem_append, ← List.count_pos_iff, ← List.count_pos_iff]
  omega

theorem not_waiting {c : CoroId} (h : sys.tokens c = 0) {k : Nat} {f : Fifo T}
    (hk : sys.fifos[k]? = some f) : c ∉ f.cv.waiting := by
  have hle := count_le_queued (fun f : Fifo T => f.cv.waiting) hk c
  unfold tokens queues at h
  rw [← List.count_pos_iff]
  omega

theorem woken_update {co : CoroId} (h : sys.tokens co = 0) {v : Option Nat}
    (he : sys'.toMachine.entries = sys.toMachine.entries)
    (hp : sys'.popping = Function.update sys.popping co v) (k : Nat) :
    sys'.woken k = sys.woken k := by
  unfold woken
  rw [he, hp]
  apply List.countP_congr
  intro c hc
  have hne : c ≠ co := by
    rintro rfl
    exact not_entry h hc
  rw [Function.update_of_ne hne]

-- A coroutine that yields changes nobody's turn.
theorem entries_yielded {i : Nat} (hpc : sys.pc = .inside i) {s : Sched}
    (hp : s.pending = sys.sched.pending) (hs : s.staging = sys.sched.staging) :
    Machine.entries ⟨s, .staging (i + 1)⟩ = sys.toMachine.entries := by
  unfold Machine.entries Machine.unprocessed
  rw [hp, hs, hpc]

/-- All is well but for one item of fifo `k`. -/
structure Slack (sys : System T) (k : Nat) : Prop where
  consumers : ∀ j f, sys.fifos[j]? = some f → ∀ c ∈ f.cv.waiting, sys.popping c = some j
  enough : ∀ j f, sys.fifos[j]? = some f → f.cv.waiting ≠ [] →
    f.q.length ≤ sys.woken j + if j = k then 1 else 0

-- The running coroutine takes that item.
theorem Slack.popped {co : CoroId} {k : Nat} {f f' : Fifo T} {x : T} (h : Slack sys k)
    (ht : sys.tokens co = 0) (hk : sys.fifos[k]? = some f) (htest : f.test = some (x, f'))
    (he : sys'.toMachine.entries = sys.toMachine.entries)
    (hf : sys'.fifos = sys.fifos.set k f')
    (hp : sys'.popping = Function.update sys.popping co none) : Woken sys' := by
  rcases Fifo.test_some htest with ⟨hq, hcv⟩
  constructor
  · intro j g hj c hc
    rw [hf] at hj
    have hold : ∃ g', sys.fifos[j]? = some g' ∧ g'.cv.waiting = g.cv.waiting := by
      rcases Maps.set_eq hj with ⟨rfl, rfl⟩ | ⟨-, hsame⟩
      · exact ⟨f, hk, by rw [hcv]⟩
      · exact ⟨g, hsame, rfl⟩
    rcases hold with ⟨g', hg', hw⟩
    rw [← hw] at hc
    have hne : c ≠ co := by
      rintro rfl
      exact not_waiting ht hg' hc
    rw [hp, Function.update_of_ne hne]
    exact h.consumers j g' hg' c hc
  · intro j g hj hne
    rw [woken_update ht he hp]
    rw [hf] at hj
    rcases Maps.set_eq hj with ⟨rfl, rfl⟩ | ⟨hjk, hsame⟩
    · rw [hcv] at hne
      have hle := h.enough j f hk hne
      rw [hq, List.length_cons, if_pos rfl] at hle
      omega
    · have hle := h.enough j g hsame hne
      rw [if_neg hjk] at hle
      exact hle

-- The running coroutine finds no item and queues up.
theorem Slack.requeued {co : CoroId} {k : Nat} {f : Fifo T} (h : Slack sys k)
    (ht : sys.tokens co = 0) (hk : sys.fifos[k]? = some f) (hq : f.q = [])
    (he : sys'.toMachine.entries = sys.toMachine.entries)
    (hf : sys'.fifos = sys.fifos.set k { f with cv := ⟨f.cv.waiting ++ [co]⟩ })
    (hp : sys'.popping = Function.update sys.popping co (some k)) : Woken sys' := by
  constructor
  · intro j g hj c hc
    rw [hf] at hj
    rw [hp]
    rcases Maps.set_eq hj with ⟨rfl, rfl⟩ | ⟨-, hsame⟩
    · by_cases hco : c = co
      · rw [hco, Function.update_self]
      · rw [Function.update_of_ne hco]
        have hmem : c ∈ f.cv.waiting := by
          rcases List.mem_append.mp hc with hin | hlast
          · exact hin
          · exact absurd (List.mem_singleton.mp hlast) hco
        exact h.consumers j f hk c hmem
    · have hne : c ≠ co := by
        rintro rfl
        exact not_waiting ht hsame hc
      rw [Function.update_of_ne hne]
      exact h.consumers j g hsame c hc
  · intro j g hj hne
    rw [woken_update ht he hp]
    rw [hf] at hj
    rcases Maps.set_eq hj with ⟨rfl, rfl⟩ | ⟨hjk, hsame⟩
    · rw [hq]
      exact Nat.zero_le _
    · have hle := h.enough j g hsame hne
      rw [if_neg hjk] at hle
      exact hle

-- A consumer that was just resumed, or has just called `pop`, takes an item, or it queues up next
-- to an empty fifo.
theorem Slack.popTest {co : CoroId} {k i : Nat} (h : Slack sys k) (hpc : sys.pc = .inside i)
    (hcur : sys.sched.current = some co) (ht : sys.tokens co = 0) :
    Woken (sys.popTest co k i) := by
  unfold System.popTest
  cases hk : sys.fifos[k]? with
  | none =>
    refine ⟨h.consumers, fun j f hj hne => ?_⟩
    have hjk : j ≠ k := by
      rintro rfl
      rw [hk] at hj
      cases hj
    have hle := h.enough j f hj hne
    rw [if_neg hjk] at hle
    exact hle
  | some f =>
    dsimp only
    cases htest : f.test with
    | some r => exact h.popped ht hk htest rfl rfl rfl
    | none =>
      rw [CondVar.wait_current hcur]
      exact h.requeued ht hk (Fifo.test_none htest) (entries_yielded hpc rfl rfl) rfl rfl

theorem Woken.block (h : Woken sys) (ht : OneToken sys) {i : Nat} {co : CoroId}
    (hpc : sys.pc = .inside i) (hr : sys.running = some co) {c : WaitCall}
    (hstep : sys.block co i c = some sys') : Woken sys' := by
  have hcur := ht.current hpc hr
  cases c with
  | sleep now msec =>
    simp only [System.block, hcur] at hstep
    obtain rfl := Option.some.inj hstep
    exact h.keep rfl rfl (woken_congr (entries_yielded hpc rfl rfl) rfl)
  | waitFor dir fd =>
    simp only [System.block, hcur] at hstep
    obtain rfl := Option.some.inj hstep
    exact h.keep rfl rfl (woken_congr (entries_yielded hpc rfl rfl) rfl)
  | cvWait k =>
    rcases Option.bind_eq_some_iff.mp hstep with ⟨cv, hk, hwait⟩
    rw [CondVar.wait_current hcur] at hwait
    obtain rfl := Option.some.inj hwait
    exact h.keep rfl rfl (woken_congr (entries_yielded hpc rfl rfl) rfl)
  | latchWait k =>
    rcases Option.bind_eq_some_iff.mp hstep with ⟨l, hk, hwait⟩
    cases hdone : l.done with
    | true =>
      rw [if_pos hdone] at hwait
      obtain rfl := Option.some.inj hwait
      exact h
    | false =>
      rw [if_neg (by simp [hdone]), Latch.wait, if_neg (by simp [hdone]),
        CondVar.wait_current hcur] at hwait
      obtain rfl := Option.some.inj hwait
      exact h.keep rfl rfl (woken_congr (entries_yielded hpc rfl rfl) rfl)
  | pop k =>
    obtain rfl := Option.some.inj hstep
    have hslack : Slack sys k :=
      ⟨h.consumers, fun j f hj hne => (h.enough j f hj hne).trans (Nat.le_add_right _ _)⟩
    exact hslack.popTest hpc hcur (ht.alive_running hr).2.2

/-! ## The scheduler -/

theorem Woken.loopHead (h : Woken sys) (ht : OneToken sys) (rule : TopRule) (tv : Timeval)
    (hpc : sys.pc.inRound = false) :
    Woken (sys.withMachine (Machine.loopHead rule tv sys.sched)) := by
  have hnone : sys.toMachine.unprocessed = [] := Machine.unprocessed_between hpc
  rcases Sched.scheduleEvents_alive rule tv ht.alive_events with ⟨s', hs⟩
  refine h.keep rfl rfl fun k => ?_
  unfold Machine.loopHead woken Machine.entries
  rw [hnone]
  split
  · exact Nat.le_refl _
  · rw [hs]
    rcases Sched.scheduleEvents_returned hs with ⟨fired, left, -, rfl⟩
    change _ ≤ List.countP _ ((sys.sched.pending ++ fired.map Event.entry).map Prod.fst ++ [])
    simp only [List.map_nil, List.append_nil, List.map_append, List.countP_append]
    exact Nat.le_add_right _ _

-- The end of a round: a pass over the timers only adds to the entries.
theorem Woken.endRound (h : Woken sys) (ht : OneToken sys) (rule : TopRule) (tv : Timeval) {i : Nat}
    (hpc : sys.pc = .staging i) (hget : sys.sched.staging[i]? = none) :
    Woken (sys.withMachine (sys.toMachine.nextEntry rule tv i)) := by
  have hrest : sys.toMachine.unprocessed = sys.sched.staging.drop i :=
    Machine.unprocessed_staging hpc
  obtain ⟨s', hs⟩ := Sched.scheduleEvents_alive rule tv (s := { sys.sched with staging := [] })
    ht.alive_events
  rw [Machine.nextEntry_none hget, hs]
  rcases Sched.scheduleEvents_returned hs with ⟨fired, left, -, rfl⟩
  refine h.keep rfl rfl fun k => ?_
  unfold woken Machine.entries
  rw [hrest, Machine.drop_of_none hget]
  change _ ≤ List.countP _ ((sys.sched.pending ++ fired.map Event.entry).map Prod.fst ++ [])
  simp only [List.map_nil, List.append_nil, List.map_append, List.countP_append]
  exact Nat.le_add_right _ _

-- A resume: one woken coroutine less, and it may be a consumer of some fifo.
theorem woken_switchTo {i : Nat} {co : CoroId} {arg : Arg} (hpc : sys.pc = .staging i)
    (hget : sys.sched.staging[i]? = some (co, arg)) (k : Nat) :
    sys.woken k = (sys.withMachine ⟨sys.sched.switchTo co arg, .inside i⟩).woken k +
      if sys.popping co = some k then 1 else 0 := by
  unfold woken Machine.entries
  rw [Machine.unprocessed_staging hpc, Machine.drop_of_some hget]
  change List.countP _ (sys.sched.pending.map Prod.fst ++
    co :: (sys.sched.staging.drop (i + 1)).map Prod.fst) =
      List.countP (fun c => decide (sys.popping c = some k)) (sys.sched.pending.map Prod.fst ++
        (sys.sched.staging.drop (i + 1)).map Prod.fst) + _
  rw [List.countP_append, List.countP_append, List.countP_cons]
  simp only [decide_eq_true_eq]
  omega

-- A resumed consumer leaves the woken ones.
theorem Woken.next (h : Woken sys) (ht : OneToken sys) (rule : TopRule) (tv : Timeval) {i : Nat}
    (hpc : sys.pc = .staging i) :
    Woken ((sys.withMachine (sys.toMachine.nextEntry rule tv i)).goOn i) := by
  rcases ht.nextEntry rule tv hpc with ⟨hnext, -⟩
  cases hget : sys.sched.staging[i]? with
  | none =>
    have hend := h.endRound ht rule tv hpc hget
    obtain ⟨s', hs⟩ := Sched.scheduleEvents_alive rule tv (s := { sys.sched with staging := [] })
      ht.alive_events
    rw [Machine.nextEntry_none hget, hs] at hend ⊢
    exact hend
  | some entry =>
    rcases entry with ⟨co, arg⟩
    have halive : (sys.sched.coros co).dead = false := by
      apply ht.alive
      unfold tokens Machine.tokens
      rw [Machine.unprocessed_staging hpc, Machine.drop_of_some hget, List.map_cons, count_cons_ind,
        ind_self]
      omega
    rw [Machine.nextEntry_some hget, Sched.resume_alive halive] at hnext ⊢
    change OneToken (sys.withMachine ⟨sys.sched.switchTo co arg, .inside i⟩) at hnext
    change Woken ((sys.withMachine ⟨sys.sched.switchTo co arg, .inside i⟩).goOn i)
    have hrun : (sys.withMachine ⟨sys.sched.switchTo co arg, .inside i⟩).running = some co := by
      change (sys.sched.staging[i]?).map Prod.fst = some co
      rw [hget]
      rfl
    have hwoken := woken_switchTo hpc hget
    unfold System.goOn
    rw [hrun]
    dsimp only
    rw [show (sys.withMachine ⟨sys.sched.switchTo co arg, .inside i⟩).popping co = sys.popping co
      from rfl]
    cases hpop : sys.popping co with
    | none =>
      refine h.keep rfl rfl fun k => ?_
      have hk := hwoken k
      rw [hpop, if_neg (by simp)] at hk
      exact Nat.le_of_eq hk
    | some k =>
      have hslack : Slack (sys.withMachine ⟨sys.sched.switchTo co arg, .inside i⟩) k := by
        refine ⟨h.consumers, fun j f hj hne => ?_⟩
        have hle := h.enough j f hj hne
        have hk := hwoken j
        rw [hpop] at hk
        simp only [Option.some.injEq, eq_comm (a := k)] at hk
        omega
      exact hslack.popTest rfl rfl (hnext.alive_running hrun).2.2

theorem Woken.test (h : Woken sys) (ht : OneToken sys) {m : Machine}
    (hstep : sys.toMachine.step .test = some m) : Woken (sys.withMachine m) := by
  rcases Machine.step_test hstep with ⟨hpc, hm⟩
  have hround : sys.pc.inRound = false := by
    rw [hpc]
    rfl
  have hsame : m.entries = sys.toMachine.entries := by
    unfold Machine.entries
    rw [Machine.unprocessed_between (m := sys.toMachine) hround]
    rcases hm with ⟨rfl, -⟩ | ⟨rfl, -⟩ | ⟨rfl, -⟩
    · change sys.sched.staging.map Prod.fst ++ (sys.sched.pending.drop 0).map Prod.fst = _
      rw [ht.between hround, List.drop_zero]
      simp
    · rfl
    · rfl
  exact h.keep rfl rfl (woken_congr hsame rfl)

theorem Woken.pollReturn (h : Woken sys) (ht : OneToken sys) (hpc : sys.pc = .polling)
    {rule : TopRule} {tv : Timeval} {r : PollResponse}
    (hstep : sys.pollReturn rule tv r = some sys') : Woken sys' := by
  unfold System.pollReturn at hstep
  cases hpoll : sys.poller.poll sys.sched r with
  | none =>
    rw [hpoll] at hstep
    cases hstep
  | some out =>
    rw [hpoll] at hstep
    rcases ht.poll hpoll with ⟨p, woken, rfl, hcount⟩
    obtain rfl := Option.some.inj hstep
    have hround : sys.pc.inRound = false := by
      rw [hpc]
      rfl
    have hpushed : Woken { sys with
        sched := sys.sched.push (woken.map Wait.entry), poller := p } :=
      h.pushed (woken.map Wait.entry) rfl rfl rfl
    exact hpushed.loopHead (ht.polled hpc hcount) rule tv hround

theorem Woken.finish (h : Woken sys) {i : Nat} {co : CoroId} (hpc : sys.pc = .inside i) :
    Woken (sys.withMachine ⟨sys.sched.finish co, .staging (i + 1)⟩) := by
  rcases Machine.finish_eq sys.sched co with ⟨coros, hfin, -⟩
  have hentries : Machine.entries ⟨sys.sched.finish co, .staging (i + 1)⟩ =
      sys.toMachine.entries := by
    rw [hfin]
    exact entries_yielded hpc rfl rfl
  exact h.keep rfl rfl (woken_congr hentries rfl)

theorem Woken.step (h : Woken sys) (ht : OneToken sys) {a : SysAct T}
    (hstep : sys.step a = some sys') : Woken sys' := by
  cases a with
  | enter rule tv =>
    rcases step_enter hstep with ⟨hpc, rfl⟩
    exact h.loopHead ht rule tv (by rw [hpc]; rfl)
  | test =>
    rcases step_test hstep with ⟨m, hm, rfl⟩
    exact h.test ht hm
  | next rule tv =>
    rcases step_next hstep with ⟨i, hpc, rfl⟩
    exact h.next ht rule tv hpc
  | finish =>
    rcases step_finish hstep with ⟨i, co, hpc, -, rfl⟩
    exact h.finish hpc
  | pollReturn rule tv r =>
    rcases step_pollReturn hstep with ⟨hpc, hpoll⟩
    exact h.pollReturn ht hpc hpoll
  | call c => exact h.call ht (step_call hstep).2
  | block c =>
    rcases step_block hstep with ⟨i, co, hpc, hr, hblock⟩
    exact h.block ht hpc hr hblock

theorem runs_woken {pollSet : Nat → Pollfd} {size : Nat} {acts : List (SysAct T)}
    (run : Runs pollSet size acts sys) : OneToken sys ∧ Woken sys := by
  apply run.invariant (I := fun sys => OneToken sys ∧ Woken sys)
  · intro t a u h hstep
    exact ⟨h.1.step hstep, h.2.step h.1 hstep⟩
  · refine ⟨oneToken_init pollSet size, fun k f hk => ?_, fun k f hk => ?_⟩
    · cases hk
    · cases hk

/-- A fifo loses no wake-up, up to a poll with more waits than slots: while a consumer is queued, there
    are at most as many items as consumers that have been woken and not yet resumed. -/
theorem fifo_no_lost_wakeup {pollSet : Nat → Pollfd} {size : Nat} {acts : List (SysAct T)}
    (run : Runs pollSet size acts sys) {k : Nat} {f : Fifo T} (hk : sys.fifos[k]? = some f)
    (hw : f.cv.waiting ≠ []) : f.q.length ≤ sys.woken k :=
  (runs_woken run).2.enough k f hk hw

/-- Two consumers wait, and one item is pushed. -/
def twoConsumers : List (SysAct Nat) :=
  let tv : Timeval := ⟨0, 0⟩
  [.call .newFifo, .call (.launch 1 0), .call (.launch 2 0), .call (.launch 3 0), .enter .first tv,
    .test, .next .first tv, .block (.pop 0), .next .first tv, .block (.pop 0), .next .first tv,
    .call (.push 0 7)]

theorem fifo_no_lost_wakeup_two_consumers :
    ∃ sys f, Runs (fun _ => ⟨0, 0, 0⟩) 8 twoConsumers sys ∧ sys.fifos[0]? = some f ∧
      f.cv.waiting = [2] ∧ f.q = [7] ∧ f.q.length ≤ sys.woken 0 := by
  have hrun : Runs (fun _ => ⟨0, 0, 0⟩) 8 twoConsumers _ := Transition.run_of_exec rfl
  refine ⟨_, ⟨⟨[2]⟩, [7]⟩, hrun, rfl, rfl, rfl, fifo_no_lost_wakeup hrun rfl ?_⟩
  decide

end System

end Coropp
