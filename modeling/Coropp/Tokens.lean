import Coropp.System

/-!
# At most one outstanding wake-up

Every entry that names a coroutine, in any container of the library, is a token of that coroutine.
A coroutine that was launched and has not ended holds one token at most, and none while it runs.
-/

namespace Coropp

/-! ## Counting -/

def ind (a b : CoroId) : Nat := if a = b then 1 else 0

theorem ind_self (a : CoroId) : ind a a = 1 := if_pos rfl

theorem ind_of_ne {a b : CoroId} (h : a ≠ b) : ind a b = 0 := if_neg h

theorem count_cons_ind (a c : CoroId) (l : List CoroId) :
    (a :: l).count c = l.count c + ind a c := by
  rw [List.count_cons, ind]
  simp only [beq_iff_eq]

theorem count_append_ind (a c : CoroId) (l : List CoroId) :
    (l ++ [a]).count c = l.count c + ind a c := by
  rw [List.count_append, count_cons_ind, List.count_nil, Nat.zero_add]

/-- The entries for `c` in a list of queues. -/
def queued {α : Type} (f : α → List CoroId) (l : List α) (c : CoroId) : Nat := (l.flatMap f).count c

-- Exchanging one queue changes the count by the difference of the two.
theorem queued_set {α : Type} (f : α → List CoroId) {l : List α} {k : Nat} {x : α}
    (h : l[k]? = some x) (y : α) (c : CoroId) :
    queued f (l.set k y) c + (f x).count c = queued f l c + (f y).count c := by
  unfold queued
  induction l generalizing k with
  | nil => cases h
  | cons z l ih =>
    cases k with
    | zero =>
      obtain rfl := Option.some.inj h
      simp only [List.set_cons_zero, List.flatMap_cons, List.count_append]
      omega
    | succ k =>
      have hrest := ih (k := k) h
      simp only [List.set_cons_succ, List.flatMap_cons, List.count_append]
      omega

theorem queued_append_empty {α : Type} {f : α → List CoroId} {x : α} (hx : f x = [])
    (l : List α) (c : CoroId) : queued f (l ++ [x]) c = queued f l c := by
  unfold queued
  rw [List.flatMap_append, List.flatMap_singleton, hx, List.append_nil]

theorem count_le_queued {α : Type} (f : α → List CoroId) {l : List α} {k : Nat} {x : α}
    (h : l[k]? = some x) (c : CoroId) : (f x).count c ≤ queued f l c := by
  rw [queued, List.flatMap_def]
  have hmem : f x ∈ l.map f := List.mem_map_of_mem (List.mem_of_getElem? h)
  exact (List.sublist_flatten_of_mem hmem).count_le c

theorem count_take_tail (l : List CoroId) (c : CoroId) :
    (l.take 1).count c + l.tail.count c = l.count c := by
  rw [← List.drop_one, ← List.count_append, List.take_append_drop]

/-! ## Tokens -/

namespace Machine

def tokens (m : Machine) (c : CoroId) : Nat :=
  (m.sched.pending.map Prod.fst).count c + (m.unprocessed.map Prod.fst).count c +
    (m.sched.events.map Event.coro).count c

def runs (m : Machine) (c : CoroId) : Nat :=
  match m.running with
  | some co => ind co c
  | none => 0

/-- Running counts as holding a token. -/
def held (m : Machine) (c : CoroId) : Nat := m.tokens c + m.runs c

theorem unprocessed_congr {s s' : Sched} (pc : Pc) (h : s'.staging = s.staging) :
    unprocessed ⟨s', pc⟩ = unprocessed ⟨s, pc⟩ := by
  unfold unprocessed
  rw [h]

theorem running_congr {s s' : Sched} (pc : Pc) (h : s'.staging = s.staging) :
    running ⟨s', pc⟩ = running ⟨s, pc⟩ := by
  unfold running
  rw [h]

theorem runs_congr {s s' : Sched} (pc : Pc) (h : s'.staging = s.staging) (c : CoroId) :
    runs ⟨s', pc⟩ c = runs ⟨s, pc⟩ c := by
  unfold runs
  rw [running_congr pc h]

theorem runs_of_not_inside {m : Machine} (h : ∀ i, m.pc ≠ .inside i) (c : CoroId) :
    m.runs c = 0 := by
  unfold runs running
  split
  next hco =>
    split at hco
    next i hpc => exact absurd hpc (h i)
    next => cases hco
  next => rfl

theorem runs_of_staging {m : Machine} {i : Nat} (h : m.pc = .staging i) (c : CoroId) :
    m.runs c = 0 := by
  apply runs_of_not_inside
  intro j hj
  rw [h] at hj
  cases hj

theorem runs_of_between {m : Machine} (h : m.pc.inRound = false) (c : CoroId) : m.runs c = 0 := by
  apply runs_of_not_inside
  intro j hj
  rw [hj] at h
  cases h

theorem runs_of_running {m : Machine} {co : CoroId} (h : m.running = some co) (c : CoroId) :
    m.runs c = ind co c := by
  unfold runs
  rw [h]

theorem tokens_push (s : Sched) (pc : Pc) (es : List PendingEntry) (c : CoroId) :
    tokens ⟨s.push es, pc⟩ c = tokens ⟨s, pc⟩ c + (es.map Prod.fst).count c := by
  have hun : unprocessed ⟨s.push es, pc⟩ = unprocessed ⟨s, pc⟩ := unprocessed_congr pc rfl
  unfold tokens
  rw [hun]
  simp only [Sched.push, List.map_append, List.count_append]
  omega

-- Control moves without anyone being resumed.
theorem held_between {s : Sched} {pc pc' : Pc} (h : pc.inRound = false) (h' : pc'.inRound = false)
    (c : CoroId) : held ⟨s, pc'⟩ c = held ⟨s, pc⟩ c := by
  unfold held tokens
  rw [unprocessed_between (m := ⟨s, pc⟩) h, unprocessed_between (m := ⟨s, pc'⟩) h',
    runs_of_between (m := ⟨s, pc⟩) h, runs_of_between (m := ⟨s, pc'⟩) h']

end Machine

/-- An operation that moves entries between `_events` and `_pending` and does nothing else that
    the tokens depend on. -/
structure Sched.SameTokens (s s' : Sched) : Prop where
  coros : s'.coros = s.coros
  staging : s'.staging = s.staging
  current : s'.current = s.current
  raised : s'.hist.raised = s.hist.raised
  count : ∀ c, (s'.pending.map Prod.fst).count c + (s'.events.map Event.coro).count c =
    (s.pending.map Prod.fst).count c + (s.events.map Event.coro).count c

theorem Sched.scheduleEvents_same (rule : TopRule) (tv : Timeval) {s : Sched}
    (halive : ∀ e ∈ s.events, (s.coros e.coro).dead = false) :
    ∃ s', s.scheduleEvents rule tv = .returned s' ∧ s.SameTokens s' := by
  rcases Sched.scheduleEvents_alive rule tv halive with ⟨s', hs⟩
  rcases Sched.scheduleEvents_returned hs with ⟨fired, left, hperm, rfl⟩
  refine ⟨_, hs, rfl, rfl, rfl, rfl, fun c => ?_⟩
  have hcount := (hperm.map Event.coro).count_eq c
  rw [List.map_append, List.count_append] at hcount
  have hentry : (fired.map Event.entry).map Prod.fst = fired.map Event.coro := by
    rw [List.map_map]
    rfl
  simp only [Sched.push, List.map_append, List.count_append, hentry]
  omega

theorem Sched.SameTokens.held {s s' : Sched} (h : s.SameTokens s') (pc : Pc) (c : CoroId) :
    Machine.held ⟨s', pc⟩ c = Machine.held ⟨s, pc⟩ c := by
  have hcount := h.count c
  unfold Machine.held Machine.tokens
  rw [Machine.unprocessed_congr pc h.staging, Machine.runs_congr pc h.staging]
  dsimp only
  omega

def WaitSets.tokens (w : WaitSets) (c : CoroId) : Nat := (w.registrations.map Wait.co).count c

namespace System

variable {T : Type}

-- The entries for `c` in all condition variables.
def queues (sys : System T) (c : CoroId) : Nat :=
  queued CondVar.waiting sys.cvs c + queued (fun l => l.cv.waiting) sys.latches c +
    queued (fun f => f.cv.waiting) sys.fifos c

/-- The number of entries that name `c`. -/
def tokens (sys : System T) (c : CoroId) : Nat :=
  sys.toMachine.tokens c + sys.poller.tokens c + sys.queues c

def held (sys : System T) (c : CoroId) : Nat := sys.tokens c + sys.runs c

def capacity (sys : System T) (c : CoroId) : Nat :=
  if sys.launched c = true ∧ (sys.sched.coros c).dead = false then 1 else 0

/-- The invariant: only a coroutine that was launched and has not ended holds a token, and only
    one. -/
structure OneToken (sys : System T) : Prop where
  bounded : ∀ c, sys.held c ≤ sys.capacity c
  inside : ∀ i, sys.pc = .inside i → ∃ co, sys.running = some co ∧ sys.sched.current = some co
  between : sys.pc.inRound = false → sys.sched.staging = []
  dead : ∀ c, (sys.sched.coros c).dead = true → sys.launched c = true
  quiet : sys.sched.hist.raised = []

variable {sys : System T}

theorem OneToken.alive (h : OneToken sys) {c : CoroId} (hc : 0 < sys.tokens c) :
    (sys.sched.coros c).dead = false := by
  have hb := h.bounded c
  unfold held capacity at hb
  by_contra hd
  rw [if_neg (by simp [hd])] at hb
  omega

theorem OneToken.alive_running (h : OneToken sys) {co : CoroId} (hr : sys.running = some co) :
    (sys.sched.coros co).dead = false ∧ sys.launched co = true ∧ sys.tokens co = 0 := by
  have hb := h.bounded co
  unfold held capacity at hb
  rw [Machine.runs_of_running hr, ind_self] at hb
  split at hb
  next hcap => exact ⟨hcap.2, hcap.1, by omega⟩
  next => omega

theorem OneToken.alive_events (h : OneToken sys) :
    ∀ e ∈ sys.sched.events, (sys.sched.coros e.coro).dead = false := by
  intro e he
  apply h.alive
  have hcount : 0 < (sys.sched.events.map Event.coro).count e.coro :=
    List.count_pos_iff.mpr (List.mem_map_of_mem he)
  unfold tokens Machine.tokens
  omega

-- A step that gives nobody a new token, where every coroutine stays as dead and as launched as it
-- was.
theorem OneToken.keep {sys' : System T} (h : OneToken sys) (hheld : ∀ c, sys'.held c ≤ sys.held c)
    (hl : sys'.launched = sys.launched)
    (hd : ∀ c, (sys'.sched.coros c).dead = (sys.sched.coros c).dead)
    (hin : ∀ i, sys'.pc = .inside i → ∃ co, sys'.running = some co ∧ sys'.sched.current = some co)
    (hb : sys'.pc.inRound = false → sys'.sched.staging = [])
    (hq : sys'.sched.hist.raised = sys.sched.hist.raised) : OneToken sys' where
  bounded := by
    intro c
    have hcap : sys'.capacity c = sys.capacity c := by
      unfold capacity
      rw [hl, hd]
    rw [hcap]
    exact (hheld c).trans (h.bounded c)
  inside := hin
  between := hb
  dead := by
    intro c hc
    rw [hl]
    rw [hd] at hc
    exact h.dead c hc
  quiet := hq.trans h.quiet

/-! ## Calls that do not block -/

-- Entries move from the queues to the end of `_pending`.
theorem OneToken.pushed {sys' : System T} (h : OneToken sys) (es : List PendingEntry)
    (hm : sys'.toMachine = ⟨sys.sched.push es, sys.pc⟩) (hp : sys'.poller = sys.poller)
    (hl : sys'.launched = sys.launched)
    (hcount : ∀ c, (es.map Prod.fst).count c + sys'.queues c = sys.queues c) :
    OneToken sys' := by
  have hpc : sys'.pc = sys.pc := by rw [hm]
  have hs : sys'.sched = sys.sched.push es := by rw [hm]
  have hrun : sys'.running = sys.running := by
    rw [hm]
    exact Machine.running_congr sys.pc rfl
  apply h.keep _ hl
  · intro c
    rw [hs]
    rfl
  · intro i hi
    rw [hpc] at hi
    rcases h.inside i hi with ⟨co, hco, hcur⟩
    exact ⟨co, hrun.trans hco, by rw [hs]; exact hcur⟩
  · intro hr
    rw [hpc] at hr
    rw [hs]
    exact h.between hr
  · rw [hs]
    rfl
  · intro c
    have hq := hcount c
    unfold held tokens
    rw [hm, hp, Machine.tokens_push, Machine.runs_congr sys.pc rfl]
    change sys.toMachine.tokens c + _ + _ + _ + sys.toMachine.runs c ≤ _
    omega

-- Who waits in a queue is not dead.
theorem OneToken.alive_queued (h : OneToken sys) {α : Type} {f : α → List CoroId} {l : List α}
    (hle : ∀ c, queued f l c ≤ sys.queues c) {k : Nat} {x : α} (hk : l[k]? = some x) :
    ∀ c ∈ f x, (sys.sched.coros c).dead = false := by
  intro c hc
  apply h.alive
  have hpos := List.count_pos_iff.mpr hc
  have hall := (count_le_queued f hk c).trans (hle c)
  unfold tokens
  omega

theorem OneToken.alive_cv (h : OneToken sys) {k : Nat} {cv : CondVar}
    (hk : sys.cvs[k]? = some cv) : ∀ c ∈ cv.waiting, (sys.sched.coros c).dead = false := by
  apply h.alive_queued (f := CondVar.waiting) _ hk
  intro c
  unfold queues
  omega

theorem OneToken.alive_latch (h : OneToken sys) {k : Nat} {l : Latch}
    (hk : sys.latches[k]? = some l) : ∀ c ∈ l.cv.waiting, (sys.sched.coros c).dead = false := by
  apply h.alive_queued (f := fun l : Latch => l.cv.waiting) _ hk
  intro c
  unfold queues
  omega

theorem OneToken.alive_fifo (h : OneToken sys) {k : Nat} {f : Fifo T}
    (hk : sys.fifos[k]? = some f) : ∀ c ∈ f.cv.waiting, (sys.sched.coros c).dead = false := by
  apply h.alive_queued (f := fun f : Fifo T => f.cv.waiting) _ hk
  intro c
  unfold queues
  omega

theorem map_fst_entries (l : List CoroId) (arg : Arg) :
    (l.map fun co => ((co, arg) : PendingEntry)).map Prod.fst = l := by
  rw [List.map_map]
  exact List.map_id l

theorem OneToken.wakeOne (h : OneToken sys) {k : Nat} {cv : CondVar}
    (hk : sys.cvs[k]? = some cv) (arg : Arg) :
    OneToken { sys.withSched (cv.wakeOne sys.sched arg).state.2.2 with
      cvs := sys.cvs.set k (cv.wakeOne sys.sched arg).state.2.1 } := by
  rcases CondVar.wakeOne_alive (h.alive_cv hk) arg with ⟨ret, hwake⟩
  rw [hwake]
  refine h.pushed ((cv.waiting.take 1).map fun co => (co, arg)) rfl rfl rfl fun c => ?_
  have hset := queued_set CondVar.waiting hk ⟨cv.waiting.tail⟩ c
  have hsplit := count_take_tail cv.waiting c
  rw [map_fst_entries]
  simp only [queues, withSched, Outcome.state_returned] at hset ⊢
  omega

theorem OneToken.latchWakeAll (h : OneToken sys) {k : Nat} {l : Latch}
    (hk : sys.latches[k]? = some l) :
    OneToken { sys.withSched (l.wakeAll sys.sched).state.2 with
      latches := sys.latches.set k (l.wakeAll sys.sched).state.1 } := by
  rcases CondVar.wakeOne_alive (h.alive_latch hk) 0 with ⟨ret, hwake⟩
  rw [Latch.wakeAll, CondVar.wakeAll_eq_wakeOne, hwake]
  refine h.pushed ((l.cv.waiting.take 1).map fun co => (co, 0)) rfl rfl rfl fun c => ?_
  have hset := queued_set (fun l : Latch => l.cv.waiting) hk ⟨⟨l.cv.waiting.tail⟩, true⟩ c
  have hsplit := count_take_tail l.cv.waiting c
  rw [map_fst_entries]
  simp only [queues, withSched, Outcome.map_returned, Outcome.state_returned] at hset ⊢
  omega

theorem OneToken.push (h : OneToken sys) {k : Nat} {f : Fifo T} (hk : sys.fifos[k]? = some f)
    (x : T) :
    OneToken { sys.withSched (f.push sys.sched x).state.2 with
      fifos := sys.fifos.set k (f.push sys.sched x).state.1
      pushes := sys.pushes ++ [(k, x)] } := by
  rcases CondVar.wakeOne_alive (h.alive_fifo hk) 0 with ⟨ret, hwake⟩
  rw [Fifo.push, hwake]
  refine h.pushed ((f.cv.waiting.take 1).map fun co => (co, 0)) rfl rfl rfl fun c => ?_
  have hset := queued_set (fun f : Fifo T => f.cv.waiting) hk ⟨⟨f.cv.waiting.tail⟩, f.q ++ [x]⟩ c
  have hsplit := count_take_tail f.cv.waiting c
  rw [map_fst_entries]
  simp only [queues, withSched, Outcome.map_returned, Outcome.state_returned] at hset ⊢
  omega

-- The call that starts a coroutine gives it its first token.
theorem OneToken.launch (h : OneToken sys) {co : CoroId} (arg : Arg)
    (hnew : sys.launched co = false) :
    OneToken { sys.withSched (sys.sched.schedule co arg).state with
      launched := Function.update sys.launched co true } := by
  have halive : (sys.sched.coros co).dead = false := by
    by_contra hd
    have := h.dead co (by simpa using hd)
    rw [hnew] at this
    cases this
  rw [Sched.schedule_alive halive, Outcome.state_returned]
  refine ⟨fun c => ?_, fun i hi => ?_, fun hr => h.between hr, fun c hc => ?_, h.quiet⟩
  · have hb := h.bounded c
    have hheld : held { sys.withSched (sys.sched.push [(co, arg)]) with
        launched := Function.update sys.launched co true } c = sys.held c + ind co c := by
      unfold held tokens
      change Machine.tokens ⟨sys.sched.push [(co, arg)], sys.pc⟩ c + _ + sys.queues c +
        Machine.runs ⟨sys.sched.push [(co, arg)], sys.pc⟩ c = _
      rw [Machine.tokens_push, Machine.runs_congr sys.pc rfl]
      have hone : ([(co, arg)].map Prod.fst).count c = ind co c := by
        rw [List.map_singleton, count_cons_ind, List.count_nil, Nat.zero_add]
      change sys.toMachine.tokens c + _ + sys.poller.tokens c + _ + sys.toMachine.runs c = _
      omega
    rw [hheld]
    unfold capacity at hb ⊢
    by_cases hc : co = c
    · subst hc
      rw [if_neg (by simp [hnew])] at hb
      rw [if_pos ⟨Function.update_self .., halive⟩, ind_self]
      omega
    · have hl : Function.update sys.launched co true c = sys.launched c :=
        Function.update_of_ne (Ne.symm hc) ..
      rw [ind_of_ne hc]
      simp only [withSched, hl]
      exact hb
  · rcases h.inside i hi with ⟨r, hr, hcur⟩
    exact ⟨r, (Machine.running_congr sys.pc rfl).trans hr, hcur⟩
  · by_cases hco : c = co
    · rw [hco]
      exact Function.update_self ..
    · change Function.update sys.launched co true c = true
      rw [Function.update_of_ne hco]
      exact h.dead c hc

-- Nothing that the tokens depend on has changed.
theorem OneToken.same {sys' : System T} (h : OneToken sys) (hm : sys'.toMachine = sys.toMachine)
    (hp : sys'.poller = sys.poller) (hl : sys'.launched = sys.launched)
    (hq : ∀ c, sys'.queues c = sys.queues c) : OneToken sys' := by
  have hnil : sys'.toMachine = ⟨sys.sched.push [], sys.pc⟩ := by rw [hm, Sched.push_nil]
  exact h.pushed [] hnil hp hl fun c => by rw [hq c, List.map_nil, List.count_nil, Nat.zero_add]

theorem OneToken.call (h : OneToken sys) {c : UserCall T} {sys' : System T}
    (hstep : sys.call c = some sys') : OneToken sys' := by
  cases c with
  | newCondVar =>
    obtain rfl := Option.some.inj hstep
    refine h.same rfl rfl rfl fun c => ?_
    have hempty := queued_append_empty (f := CondVar.waiting) (x := {}) rfl sys.cvs c
    simp only [queues, hempty]
  | newLatch =>
    obtain rfl := Option.some.inj hstep
    refine h.same rfl rfl rfl fun c => ?_
    have hempty := queued_append_empty (f := fun l : Latch => l.cv.waiting) (x := {}) rfl sys.latches c
    simp only [queues, hempty]
  | newFifo =>
    obtain rfl := Option.some.inj hstep
    refine h.same rfl rfl rfl fun c => ?_
    have hempty := queued_append_empty (f := fun f : Fifo T => f.cv.waiting) (x := {}) rfl sys.fifos c
    simp only [queues, hempty]
  | launch co arg =>
    simp only [System.call] at hstep
    split at hstep
    · cases hstep
    next hnew =>
      obtain rfl := Option.some.inj hstep
      exact h.launch arg (by simpa using hnew)
  | exit =>
    obtain rfl := Option.some.inj hstep
    exact h.keep (fun _ => Nat.le_refl _) rfl (fun _ => rfl) h.inside h.between rfl
  | wakeOne k arg =>
    rcases Option.map_eq_some_iff.mp hstep with ⟨cv, hk, rfl⟩
    exact h.wakeOne hk arg
  | wakeAll k arg =>
    rcases Option.map_eq_some_iff.mp hstep with ⟨cv, hk, rfl⟩
    exact h.wakeOne hk arg
  | latchWakeAll k =>
    rcases Option.map_eq_some_iff.mp hstep with ⟨l, hk, rfl⟩
    exact h.latchWakeAll hk
  | push k x =>
    rcases Option.map_eq_some_iff.mp hstep with ⟨f, hk, rfl⟩
    exact h.push hk x

/-! ## Calls that block -/

theorem OneToken.current (h : OneToken sys) {i : Nat} {co : CoroId} (hpc : sys.pc = .inside i)
    (hr : sys.running = some co) : sys.sched.current = some co := by
  rcases h.inside i hpc with ⟨c, hc, hcur⟩
  rw [hr] at hc
  rw [hcur, Option.some.inj hc]

-- The running coroutine leaves one token behind and yields.
theorem OneToken.blocked {sys' : System T} (h : OneToken sys) {i : Nat} {co : CoroId}
    (hpc : sys.pc = .inside i) (hr : sys.running = some co) (es : List Event)
    (hm : sys'.toMachine =
      ⟨({ sys.sched with events := es } : Sched).yield co 0, .staging (i + 1)⟩)
    (hl : sys'.launched = sys.launched)
    (hcount : ∀ c, (es.map Event.coro).count c + sys'.poller.tokens c + sys'.queues c ≤
      (sys.sched.events.map Event.coro).count c + sys.poller.tokens c + sys.queues c + ind co c) :
    OneToken sys' := by
  have hs : sys'.sched = ({ sys.sched with events := es } : Sched).yield co 0 := by rw [hm]
  have hpc' : sys'.pc = .staging (i + 1) := by rw [hm]
  apply h.keep _ hl
  · intro c
    rw [hs]
    exact Sched.yield_dead _ co 0 c
  · intro j hj
    rw [hpc'] at hj
    cases hj
  · intro hround
    rw [hpc'] at hround
    cases hround
  · rw [hs]
    rfl
  · intro c
    have hq := hcount c
    have hruns : sys'.toMachine.runs c = 0 := Machine.runs_of_staging hpc' c
    have hrest : sys.toMachine.unprocessed = sys.sched.staging.drop (i + 1) :=
      Machine.unprocessed_inside hpc
    have hrest' : sys'.toMachine.unprocessed = sys.sched.staging.drop (i + 1) := by
      rw [hm]
      rfl
    have hruns' := Machine.runs_of_running hr c
    unfold held tokens Machine.tokens
    rw [hruns, hruns', hrest, hrest', hs]
    change (sys.sched.pending.map Prod.fst).count c + _ + (es.map Event.coro).count c + _ + _ + _ ≤ _
    omega

theorem WaitSets.tokens_setWaitFor (w : WaitSets) (dir : Direction) (fd : Fd) (co c : CoroId) :
    (w.setWaitFor dir fd co).tokens c ≤ w.tokens c + ind co c := by
  unfold WaitSets.tokens
  cases hold : (w.waitSet dir)[fd]? with
  | none =>
    have hperm := (WaitSets.registrations_setWaitFor_new co hold).map Wait.co
    rw [hperm.count_eq, List.map_cons, count_cons_ind]
  | some old =>
    rcases WaitSets.registrations_setWaitFor_old co hold with ⟨rest, hbefore, hafter⟩
    rw [(hbefore.map Wait.co).count_eq, (hafter.map Wait.co).count_eq, List.map_cons,
      List.map_cons, count_cons_ind, count_cons_ind]
    dsimp only
    omega

theorem OneToken.popTest (h : OneToken sys) {i : Nat} {co : CoroId} (hpc : sys.pc = .inside i)
    (hr : sys.running = some co) (k : Nat) : OneToken (sys.popTest co k i) := by
  have hcur := h.current hpc hr
  unfold System.popTest
  cases hk : sys.fifos[k]? with
  | none => exact h
  | some f =>
    dsimp only
    cases htest : f.test with
    | none =>
      rw [CondVar.wait_current hcur]
      refine h.blocked hpc hr sys.sched.events rfl rfl fun c => ?_
      have hset := queued_set (fun f : Fifo T => f.cv.waiting) hk
        { f with cv := ⟨f.cv.waiting ++ [co]⟩ } c
      have happ := count_append_ind co c f.cv.waiting
      simp only [queues, yielded] at hset ⊢
      omega
    | some r =>
      rcases r with ⟨x, f'⟩
      refine h.same rfl rfl rfl fun c => ?_
      have hset := queued_set (fun f : Fifo T => f.cv.waiting) hk f' c
      simp only [queues, (Fifo.test_some htest).2] at hset ⊢
      omega

theorem OneToken.block (h : OneToken sys) {i : Nat} {co : CoroId} (hpc : sys.pc = .inside i)
    (hr : sys.running = some co) {c : WaitCall} {sys' : System T}
    (hstep : sys.block co i c = some sys') : OneToken sys' := by
  have hcur := h.current hpc hr
  cases c with
  | sleep now msec =>
    simp only [System.block, hcur] at hstep
    obtain rfl := Option.some.inj hstep
    refine h.blocked hpc hr (⟨sleepDeadline now msec, 0, co⟩ :: sys.sched.events) rfl rfl
      fun c => ?_
    change ((⟨sleepDeadline now msec, 0, co⟩ :: sys.sched.events).map Event.coro).count c +
      sys.poller.tokens c + sys.queues c ≤ _
    rw [List.map_cons, count_cons_ind]
    dsimp only
    omega
  | waitFor dir fd =>
    simp only [System.block, hcur] at hstep
    obtain rfl := Option.some.inj hstep
    refine h.blocked hpc hr sys.sched.events rfl rfl fun c => ?_
    have hset := WaitSets.tokens_setWaitFor sys.poller.toWaitSets dir fd co c
    change _ + (sys.poller.setWaitFor dir fd co).tokens c + sys.queues c ≤ _
    omega
  | cvWait k =>
    rcases Option.bind_eq_some_iff.mp hstep with ⟨cv, hk, hwait⟩
    rw [CondVar.wait_current hcur] at hwait
    obtain rfl := Option.some.inj hwait
    refine h.blocked hpc hr sys.sched.events rfl rfl fun c => ?_
    have hset := queued_set CondVar.waiting hk ⟨cv.waiting ++ [co]⟩ c
    have happ := count_append_ind co c cv.waiting
    simp only [queues, yielded] at hset ⊢
    omega
  | latchWait k =>
    rcases Option.bind_eq_some_iff.mp hstep with ⟨l, hk, hwait⟩
    cases hdone : l.done with
    | true =>
      rw [if_pos hdone] at hwait
      obtain rfl := Option.some.inj hwait
      exact h
    | false =>
      rw [if_neg (by simp [hdone]), Latch.wait, if_neg (by simp [hdone]),
        CondVar.wait_current hcur] at hwait
      obtain rfl := Option.some.inj hwait
      refine h.blocked hpc hr sys.sched.events rfl rfl fun c => ?_
      have hset := queued_set (fun l : Latch => l.cv.waiting) hk
        { l with cv := ⟨l.cv.waiting ++ [co]⟩ } c
      have happ := count_append_ind co c l.cv.waiting
      simp only [queues, yielded] at hset ⊢
      omega
  | pop k =>
    obtain rfl := Option.some.inj hstep
    exact h.popTest hpc hr k

/-! ## The scheduler -/

theorem Sched.SameTokens.refl (s : Sched) : s.SameTokens s :=
  ⟨rfl, rfl, rfl, rfl, fun _ => rfl⟩

-- Control moves outside a round, with the entries in the same number.
theorem OneToken.move (h : OneToken sys) (hpc : sys.pc.inRound = false) {s : Sched} {pc : Pc}
    (hpc' : pc.inRound = false) (hs : sys.sched.SameTokens s) :
    OneToken (sys.withMachine ⟨s, pc⟩) := by
  refine h.keep (fun c => ?_) rfl (fun c => ?_) (fun i hi => ?_)
    (fun _ => hs.staging.trans (h.between hpc)) hs.raised
  · have hheld := (hs.held pc c).trans (Machine.held_between hpc hpc' c)
    unfold held tokens
    unfold Machine.held at hheld
    change Machine.tokens ⟨s, pc⟩ c + sys.poller.tokens c + sys.queues c +
      Machine.runs ⟨s, pc⟩ c ≤ Machine.tokens ⟨sys.sched, sys.pc⟩ c + sys.poller.tokens c +
        sys.queues c + Machine.runs ⟨sys.sched, sys.pc⟩ c
    omega
  · change (s.coros c).dead = _
    rw [hs.coros]
  · change pc = .inside i at hi
    rw [hi] at hpc'
    cases hpc'

theorem OneToken.loopHead (h : OneToken sys) (rule : TopRule) (tv : Timeval)
    (hpc : sys.pc.inRound = false) :
    OneToken (sys.withMachine (Machine.loopHead rule tv sys.sched)) := by
  rcases Sched.scheduleEvents_same rule tv h.alive_events with ⟨s', hs, hsame⟩
  unfold Machine.loopHead
  split
  · exact h.move hpc rfl (Sched.SameTokens.refl _)
  · rw [hs]
    exact h.move hpc rfl hsame

-- Resuming an entry turns the coroutine's token into running.
theorem OneToken.nextEntry (h : OneToken sys) (rule : TopRule) (tv : Timeval) {i : Nat}
    (hpc : sys.pc = .staging i) :
    OneToken (sys.withMachine (sys.toMachine.nextEntry rule tv i)) ∧
      ((sys.toMachine.nextEntry rule tv i).pc = .inside i ∨
        (sys.toMachine.nextEntry rule tv i).running = none) := by
  have hrest : sys.toMachine.unprocessed = sys.sched.staging.drop i :=
    Machine.unprocessed_staging hpc
  have hruns : ∀ c, sys.toMachine.runs c = 0 := Machine.runs_of_staging hpc
  cases hget : sys.sched.staging[i]? with
  | none =>
    -- the round is over
    obtain ⟨s', hs, hsame⟩ := Sched.scheduleEvents_same rule tv (s := { sys.sched with staging := [] })
      h.alive_events
    rw [Machine.nextEntry_none hget, hs]
    refine ⟨h.keep (fun c => ?_) rfl (fun c => ?_) (fun j hj => by cases hj)
      (fun _ => hsame.staging) hsame.raised, .inr rfl⟩
    · have hcount := hsame.count c
      have hruns' : Machine.runs ⟨s', .runPending⟩ c = 0 := Machine.runs_of_between rfl c
      unfold held tokens Machine.tokens
      rw [hrest, Machine.drop_of_none hget, hruns]
      change (s'.pending.map Prod.fst).count c + 0 + (s'.events.map Event.coro).count c +
        sys.poller.tokens c + sys.queues c + Machine.runs ⟨s', .runPending⟩ c ≤ _
      rw [hruns']
      simp only [List.map_nil, List.count_nil]
      dsimp only at hcount
      omega
    · change (s'.coros c).dead = _
      rw [hsame.coros]
  | some entry =>
    rcases entry with ⟨co, arg⟩
    have hdrop := Machine.drop_of_some hget
    have halive : (sys.sched.coros co).dead = false := by
      apply h.alive
      unfold tokens Machine.tokens
      rw [hrest, hdrop, List.map_cons, count_cons_ind, ind_self]
      omega
    have hrun : Machine.running ⟨sys.sched.switchTo co arg, .inside i⟩ = some co := by
      change (sys.sched.staging[i]?).map Prod.fst = some co
      rw [hget]
      rfl
    rw [Machine.nextEntry_some hget, Sched.resume_alive halive]
    refine ⟨h.keep (fun c => ?_) rfl (fun c => ?_) (fun j hj => ⟨co, hrun, rfl⟩)
      (fun hround => by cases hround) rfl, .inl rfl⟩
    · have hruns' := Machine.runs_of_running hrun c
      unfold held tokens Machine.tokens
      rw [hrest, hdrop, List.map_cons, count_cons_ind, hruns]
      change (sys.sched.pending.map Prod.fst).count c +
        ((sys.sched.staging.drop (i + 1)).map Prod.fst).count c +
        (sys.sched.events.map Event.coro).count c + sys.poller.tokens c + sys.queues c +
        Machine.runs ⟨sys.sched.switchTo co arg, .inside i⟩ c ≤ _
      rw [hruns']
      dsimp only
      omega
    · exact Sched.switchTo_dead _ co arg c

theorem OneToken.goOn (h : OneToken sys) {i : Nat} (hpc : sys.pc = .inside i) :
    OneToken (sys.goOn i) := by
  unfold System.goOn
  cases hr : sys.running with
  | none => exact h
  | some co =>
    dsimp only
    cases sys.popping co with
    | none => exact h
    | some k => exact h.popTest hpc hr k

theorem OneToken.finish (h : OneToken sys) {i : Nat} {co : CoroId} (hpc : sys.pc = .inside i)
    (hr : sys.running = some co) :
    OneToken (sys.withMachine ⟨sys.sched.finish co, .staging (i + 1)⟩) := by
  have hcur := h.current hpc hr
  rcases h.alive_running hr with ⟨-, hlaunched, hnone⟩
  rcases Machine.finish_eq sys.sched co with ⟨coros, hfin, -⟩
  have hdead := sys.sched.finish_dead co
  have hheld : ∀ c, held (sys.withMachine ⟨sys.sched.finish co, .staging (i + 1)⟩) c =
      sys.tokens c := by
    intro c
    have hruns : Machine.runs ⟨sys.sched.finish co, .staging (i + 1)⟩ c = 0 :=
      Machine.runs_of_staging rfl c
    have hrest : sys.toMachine.unprocessed = sys.sched.staging.drop (i + 1) :=
      Machine.unprocessed_inside hpc
    unfold held
    rw [show (sys.withMachine ⟨sys.sched.finish co, .staging (i + 1)⟩).toMachine.runs c = 0
      from hruns]
    unfold tokens Machine.tokens
    rw [hrest]
    simp only [withMachine, hfin]
    rfl
  refine ⟨fun c => ?_, fun j hj => (by cases hj), fun hround => (by cases hround), fun c hc => ?_, ?_⟩
  · have hb := h.bounded c
    rw [hheld]
    unfold capacity held at *
    change _ ≤ if sys.launched c = true ∧ ((sys.sched.finish co).coros c).dead = false then 1 else 0
    rw [hdead]
    by_cases hc : c = co
    · subst hc
      rw [if_pos rfl, hnone]
      exact Nat.zero_le _
    · rw [if_neg hc]
      omega
  · change ((sys.sched.finish co).coros c).dead = true at hc
    rw [hdead] at hc
    by_cases hco : c = co
    · rw [hco]
      exact hlaunched
    · rw [if_neg hco] at hc
      exact h.dead c hc
  · change (sys.sched.finish co).hist.raised = []
    rw [hfin]
    exact h.quiet

-- The new round has all entries before it.
theorem OneToken.swapLists (h : OneToken sys) (hpc : sys.pc.inRound = false) :
    OneToken (sys.withMachine ⟨sys.sched.swapLists, .staging 0⟩) := by
  refine h.keep (fun c => ?_) rfl (fun _ => rfl) (fun i hi => by cases hi)
    (fun hround => by cases hround) rfl
  have hruns : Machine.runs ⟨sys.sched.swapLists, .staging 0⟩ c = 0 :=
    Machine.runs_of_staging rfl c
  unfold held tokens Machine.tokens
  rw [Machine.unprocessed_between hpc]
  change (sys.sched.staging.map Prod.fst).count c +
    ((sys.sched.pending.drop 0).map Prod.fst).count c +
    (sys.sched.events.map Event.coro).count c + sys.poller.tokens c + sys.queues c +
    Machine.runs ⟨sys.sched.swapLists, .staging 0⟩ c ≤ _
  rw [hruns, h.between hpc, List.drop_zero]
  simp only [List.map_nil, List.count_nil]
  omega

theorem OneToken.test (h : OneToken sys) {m : Machine}
    (hstep : sys.toMachine.step .test = some m) : OneToken (sys.withMachine m) := by
  rcases Machine.step_test hstep with ⟨hpc, hm⟩
  have hround : sys.pc.inRound = false := by
    rw [hpc]
    rfl
  rcases hm with ⟨rfl, -⟩ | ⟨rfl, -⟩ | ⟨rfl, -⟩
  · exact h.swapLists hround
  · exact h.move hround rfl (Sched.SameTokens.refl _)
  · exact h.move hround rfl (Sched.SameTokens.refl _)

/-! ## The poller -/

-- `poll` moves registrations to the end of `_pending`, and does not throw.
theorem OneToken.poll (h : OneToken sys) {r : PollResponse} {out : Outcome (PollPoller × Sched)}
    (hpoll : sys.poller.poll sys.sched r = some out) :
    ∃ (p : PollPoller) (woken : List Wait),
      out = .returned (p, sys.sched.push (woken.map Wait.entry)) ∧
      ∀ c, sys.poller.tokens c = (woken.map Wait.co).count c + p.tokens c := by
  rcases PollPoller.poll_moves hpoll with ⟨woken, left, hperm, hout⟩
  have hcount : ∀ c, sys.poller.tokens c = (woken.map Wait.co).count c + left.tokens c := by
    intro c
    unfold WaitSets.tokens
    rw [(hperm.map Wait.co).count_eq, List.map_append, List.count_append]
  cases out with
  | deadCoro z st =>
    -- a registered coroutine is not dead
    rcases hout with hret | ⟨w, hw, hd, -⟩
    · cases hret
    · have halive : (sys.sched.coros w.co).dead = false := by
        apply h.alive
        have hpos : 0 < (left.registrations.map Wait.co).count w.co :=
          List.count_pos_iff.mpr (List.mem_map_of_mem hw)
        have hsum := hcount w.co
        unfold WaitSets.tokens at hsum
        unfold tokens WaitSets.tokens
        omega
      rw [halive] at hd
      cases hd
  | returned st =>
    rcases st with ⟨p, s⟩
    rcases hout with hret | ⟨w, -, -, hthrow⟩
    · rcases Prod.mk.inj (Outcome.returned.inj hret) with ⟨hleft, hs⟩
      dsimp only at hleft hs
      rw [← hleft] at hcount
      exact ⟨p, woken, by rw [hs], hcount⟩
    · cases hthrow

theorem OneToken.polled (h : OneToken sys) (hpc : sys.pc = .polling) {p : PollPoller}
    {woken : List Wait}
    (hcount : ∀ c, sys.poller.tokens c = (woken.map Wait.co).count c + p.tokens c) :
    OneToken { sys with sched := sys.sched.push (woken.map Wait.entry), poller := p } := by
  refine h.keep (fun c => ?_) rfl (fun _ => rfl) (fun i hi => ?_) (fun _ => ?_) rfl
  · have hsum := hcount c
    have hentries : (woken.map Wait.entry).map Prod.fst = woken.map Wait.co := by
      rw [List.map_map]
      rfl
    unfold held tokens
    change Machine.tokens ⟨sys.sched.push (woken.map Wait.entry), sys.pc⟩ c +
      p.toWaitSets.tokens c + sys.queues c +
      Machine.runs ⟨sys.sched.push (woken.map Wait.entry), sys.pc⟩ c ≤ _
    rw [Machine.tokens_push, hentries, Machine.runs_congr sys.pc rfl]
    change sys.toMachine.tokens c + _ + _ + _ + sys.toMachine.runs c ≤ _
    omega
  · rw [show sys.pc = .inside i from hi] at hpc
    cases hpc
  · exact h.between (by rw [hpc]; rfl)

theorem OneToken.pollReturn (h : OneToken sys) (hpc : sys.pc = .polling) {rule : TopRule}
    {tv : Timeval} {r : PollResponse} {sys' : System T}
    (hstep : sys.pollReturn rule tv r = some sys') : OneToken sys' := by
  unfold System.pollReturn at hstep
  cases hpoll : sys.poller.poll sys.sched r with
  | none =>
    rw [hpoll] at hstep
    cases hstep
  | some out =>
    rw [hpoll] at hstep
    rcases h.poll hpoll with ⟨p, woken, rfl, hcount⟩
    obtain rfl := Option.some.inj hstep
    have hround : sys.pc.inRound = false := by
      rw [hpc]
      rfl
    exact (h.polled hpc hcount).loopHead rule tv hround

-- The step lemma.
theorem OneToken.step (h : OneToken sys) {a : SysAct T} {sys' : System T}
    (hstep : sys.step a = some sys') : OneToken sys' := by
  cases a with
  | enter rule tv =>
    rcases step_enter hstep with ⟨hpc, rfl⟩
    exact h.loopHead rule tv (by rw [hpc]; rfl)
  | test =>
    rcases step_test hstep with ⟨m, hm, rfl⟩
    exact h.test hm
  | next rule tv =>
    rcases step_next hstep with ⟨i, hpc, rfl⟩
    rcases h.nextEntry rule tv hpc with ⟨hnext, hin | hnone⟩
    · exact hnext.goOn hin
    · have hstay : (sys.withMachine (sys.toMachine.nextEntry rule tv i)).goOn i =
          sys.withMachine (sys.toMachine.nextEntry rule tv i) := by
        unfold System.goOn
        rw [show (sys.withMachine (sys.toMachine.nextEntry rule tv i)).running = none from hnone]
      rw [hstay]
      exact hnext
  | finish =>
    rcases step_finish hstep with ⟨i, co, hpc, hr, rfl⟩
    exact h.finish hpc hr
  | pollReturn rule tv r =>
    rcases step_pollReturn hstep with ⟨hpc, hpoll⟩
    exact h.pollReturn hpc hpoll
  | call c => exact h.call (step_call hstep).2
  | block c =>
    rcases step_block hstep with ⟨i, co, hpc, hr, hblock⟩
    exact h.block hpc hr hblock

theorem oneToken_init (pollSet : Nat → Pollfd) (size : Nat) :
    OneToken (init pollSet size : System T) where
  bounded := by
    intro c
    have hzero : held (init pollSet size : System T) c = 0 := rfl
    rw [hzero]
    exact Nat.zero_le _
  inside := fun i hi => by cases hi
  between := fun _ => rfl
  dead := fun c hc => by cases hc
  quiet := rfl

theorem runs_oneToken {pollSet : Nat → Pollfd} {size : Nat} {acts : List (SysAct T)}
    (run : Runs pollSet size acts sys) : OneToken sys :=
  run.invariant (fun _ _ _ h hstep => OneToken.step h hstep) (oneToken_init pollSet size)

/-- In every run of a program, up to a poll with more waits than slots, at most one entry of all
    containers names a coroutine, none names the running one or a dead one, and no `Dead_Coro` has
    been raised. -/
theorem at_most_one_wakeup {pollSet : Nat → Pollfd} {size : Nat} {acts : List (SysAct T)}
    (run : Runs pollSet size acts sys) :
    (∀ c, sys.tokens c ≤ 1) ∧ (∀ co, sys.running = some co → sys.tokens co = 0) ∧
      (∀ c, (sys.sched.coros c).dead = true → sys.tokens c = 0) ∧
      sys.sched.hist.raised = [] := by
  have h := runs_oneToken run
  have hle : ∀ c, sys.tokens c ≤ sys.capacity c := fun c =>
    (Nat.le_add_right _ _).trans (h.bounded c)
  refine ⟨fun c => ?_, fun co hr => (h.alive_running hr).2.2, fun c hd => ?_, h.quiet⟩
  · apply (hle c).trans
    unfold capacity
    split <;> omega
  · have hc := hle c
    unfold capacity at hc
    rw [if_neg (by simp [hd])] at hc
    omega

/-- Coroutine 1 waits in `pop`; coroutine 2 waits to read from descriptor 3, and when that is ready
    it pushes an item and ends. -/
def popAndPush : List (SysAct Nat) :=
  let tv : Timeval := ⟨0, 0⟩
  [.call .newFifo, .call (.launch 1 0), .call (.launch 2 0), .enter .first tv, .test,
    .next .first tv, .block (.pop 0), .next .first tv, .block (.waitFor .read 3), .next .first tv,
    .test, .pollReturn .first tv ⟨1, fun _ => pollin⟩, .test, .next .first tv, .call (.push 0 7),
    .finish]

theorem at_most_one_wakeup_pop_and_push :
    ∃ sys, Runs (fun _ => ⟨0, 0, 0⟩) 8 popAndPush sys ∧ sys.tokens 1 = 1 ∧
      (sys.sched.coros 2).dead = true ∧ sys.tokens 2 = 0 := by
  have hrun : Runs (fun _ => ⟨0, 0, 0⟩) 8 popAndPush _ := Transition.run_of_exec rfl
  exact ⟨_, hrun, by decide, rfl, (at_most_one_wakeup hrun).2.2.1 2 rfl⟩

end System

end Coropp
