import Coropp.Expiry
import Coropp.System
import Mathlib.Data.List.Forall2

/-!
# `sleep` and the timers

A whole run with its history: which event each pending entry came from, what each pass over the
timers has scheduled, and what each `sleep` was called with and returned on.
-/

namespace Coropp

open Transition

/-! ## Exact times -/

namespace Timeval

/-- The microseconds of a time. -/
def micros (t : Timeval) : Int := t.sec * 1000000 + t.usec

def Normalised (t : Timeval) : Prop := 0 ≤ t.usec ∧ t.usec < 1000000

instance (t : Timeval) : Decidable t.Normalised := inferInstanceAs (Decidable (_ ∧ _))

end Timeval

-- `timercmp` compares normalised times exactly.
theorem timercmpLt_iff {a b : Timeval} (ha : a.Normalised) (hb : b.Normalised) :
    timercmpLt a b = true ↔ a.micros < b.micros := by
  unfold Timeval.Normalised at ha hb
  unfold timercmpLt Timeval.micros
  split
  · rw [decide_eq_true_eq]
    omega
  · rw [decide_eq_true_eq]
    omega

theorem timeradd_exact {a b : Timeval} (ha : a.Normalised) (hb : b.Normalised) :
    (timeradd a b).Normalised ∧ (timeradd a b).micros = a.micros + b.micros := by
  unfold Timeval.Normalised at ha hb ⊢
  unfold timeradd Timeval.micros
  split
  · dsimp only
    omega
  · dsimp only
    omega

-- The deadline of a sleep, with all carries.
theorem sleepDeadline_exact {now : Timeval} {msec : Int} (hnow : now.Normalised)
    (hmsec : 0 ≤ msec) :
    (sleepDeadline now msec).Normalised ∧
      (sleepDeadline now msec).micros = now.micros + msec * 1000 := by
  have hmod := Int.emod_nonneg msec (by decide : (1000 : Int) ≠ 0)
  have hlt := Int.emod_lt_of_pos msec (by decide : (0 : Int) < 1000)
  have hdiv : msec = 1000 * (msec / 1000) + msec % 1000 := (Int.mul_ediv_add_emod msec 1000).symm
  have hspan : (⟨msec / 1000, msec % 1000 * 1000⟩ : Timeval).Normalised := by
    unfold Timeval.Normalised
    dsimp only
    omega
  have hadd := timeradd_exact hnow hspan
  unfold sleepDeadline
  rw [Int.tdiv_eq_ediv_of_nonneg hmsec, Int.tmod_eq_emod_of_nonneg hmsec]
  refine ⟨hadd.1, hadd.2.trans ?_⟩
  unfold Timeval.micros
  dsimp only
  omega

/-! ## Runs with their history -/

/-- A call of `sleep`: the clock reading it took, the serial number of its event, and the number of
    passes before it. -/
structure Sleep where
  now : Timeval
  msec : Int
  timer : Nat
  since : Nat
deriving DecidableEq, Repr

/-- A `sleep` that has come back: the event that the resumed entry came from, if any, and the number
    of passes so far. -/
structure SleepReturn where
  sleep : Sleep
  source : Option Nat
  till : Nat
deriving DecidableEq, Repr

/-- A pass of `schedule_events`: the clock reading it took, and the events it scheduled. -/
structure Pass where
  tv : Timeval
  fired : List (Nat × Event)
deriving DecidableEq, Repr

/-- `asleep` says which coroutines are in the `yield` of `sleep`.  All other fields are history
    variables: `timers` numbers the events of the scheduler in the order of their insertion, and
    `pendingFrom` and `stagingFrom` name the event that each entry of the two lists came from. -/
structure TimerWorld extends Machine where
  asleep : CoroId → Option Sleep := fun _ => none
  timers : List (Nat × Event) := []
  born : Nat := 0
  pendingFrom : List (Option Nat) := []
  stagingFrom : List (Option Nat) := []
  passes : List Pass := []
  returns : List SleepReturn := []

inductive TimerAct where
  /-- Any step of the scheduler, a coroutine, the poller or the main program. -/
  | machine (a : Act)
  /-- The running coroutine calls `self->sleep (msec)`, and the clock reads `now`. -/
  | sleep (self : CoroId) (now : Timeval) (msec : Int)

namespace TimerWorld

/-- What a pass at the reading `tv` does to the numbered events. -/
def sweepTimers (w : TimerWorld) (rule : TopRule) (tv : Timeval) : Swept (Nat × Event) :=
  sweep Prod.snd rule tv (fun c => (w.sched.coros c).dead) w.timers.length w.timers

def notePass (w : TimerWorld) (rule : TopRule) (tv : Timeval) : TimerWorld :=
  let r := w.sweepTimers rule tv
  { w with
    timers := r.left
    pendingFrom := w.pendingFrom ++ r.fired.map fun x => some x.1
    passes := w.passes ++ [⟨tv, r.fired⟩] }

def noteEvent (w : TimerWorld) (e : Event) : TimerWorld :=
  { w with timers := (w.born, e) :: w.timers, born := w.born + 1 }

/-- The coroutine `co` is resumed by an entry that came from `source`. -/
def noteResume (w : TimerWorld) (co : CoroId) (source : Option Nat) : TimerWorld :=
  match w.asleep co with
  | some sleep =>
    { w with
      asleep := Function.update w.asleep co none
      returns := w.returns ++ [⟨sleep, source, w.passes.length⟩] }
  | none => w

/-- The history of a step of the scheduler. -/
def note (w : TimerWorld) : Act → TimerWorld
  | .enter rule tv | .pollReturn rule tv => if w.sched.exit then w else w.notePass rule tv
  | .test =>
    if w.sched.pending.length > 0 then
      { w with pendingFrom := w.stagingFrom, stagingFrom := w.pendingFrom }
    else w
  | .next rule tv =>
    match w.pc with
    | .staging i =>
      match w.sched.staging[i]? with
      | some (co, _) =>
        if (w.sched.coros co).dead then w else w.noteResume co (w.stagingFrom[i]?).join
      | none => { w with stagingFrom := [] }.notePass rule tv
    | _ => w
  | .call (.schedule co _) =>
    if (w.sched.coros co).dead then w else { w with pendingFrom := w.pendingFrom ++ [none] }
  | .call (.insertEvent t co args) => w.noteEvent ⟨t, args, co⟩
  | _ => w

def withMachine (w : TimerWorld) (m : Machine) : TimerWorld := { w with toMachine := m }

def step (w : TimerWorld) : TimerAct → Option TimerWorld
  | .machine a => (w.toMachine.step a).map (w.note a).withMachine
  | .sleep self now msec =>
    match w.pc, w.sched.current with
    | .inside i, some me =>
      let t := sleepDeadline now msec
      let s := (w.sched.insertEvent t me 0).yield self 0
      some
        { (w.noteEvent ⟨t, 0, me⟩).withMachine ⟨s, .staging (i + 1)⟩ with
          asleep := Function.update w.asleep me (some ⟨now, msec, w.born, w.passes.length⟩) }
    | _, _ => none

def Runs (acts : List TimerAct) (w : TimerWorld) : Prop :=
  Run (ofFun step) ({} : TimerWorld) acts w

end TimerWorld

/-- The clock readings of the act are normalised. -/
def TimerAct.Normalised : TimerAct → Prop
  | .machine (.enter _ tv) | .machine (.next _ tv) | .machine (.pollReturn _ tv) => tv.Normalised
  | .sleep _ now _ => now.Normalised
  | _ => True

/-! ## The history is kept -/

/-- Where an entry of the lists came from an event, a pass has scheduled that event. -/
def Sourced (passes : List Pass) (entry : PendingEntry) (source : Option Nat) : Prop :=
  ∀ k, source = some k → ∃ p ∈ passes, ∃ e, (k, e) ∈ p.fired ∧ e.entry = entry

/-- A `sleep` woken by its own timer came back after a pass that read the clock past its deadline,
    and that pass came after the call. -/
def InTime (passes : List Pass) (r : SleepReturn) : Prop :=
  0 ≤ r.sleep.msec → r.source = some r.sleep.timer →
    ∃ p ∈ (passes.take r.till).drop r.sleep.since,
      r.sleep.now.micros + r.sleep.msec * 1000 < p.tv.micros

/-- A coroutine that sleeps has its own event, which no pass before the call has scheduled. -/
structure Slept (passes : List Pass) (timers : List (Nat × Event)) (born : Nat) (sl : Sleep) :
    Prop where
  clock : sl.now.Normalised
  timer : sl.timer < born
  since : sl.since ≤ passes.length
  before : ∀ p ∈ passes.take sl.since, ∀ x ∈ p.fired, x.1 ≠ sl.timer
  deadline : ∀ x ∈ passes.flatMap Pass.fired ++ timers, x.1 = sl.timer →
    x.2.t = sleepDeadline sl.now sl.msec

namespace TimerWorld

/-- All events scheduled so far. -/
def fired (w : TimerWorld) : List (Nat × Event) := w.passes.flatMap Pass.fired

/-- The history variables and the machine agree. -/
structure Kept (w : TimerWorld) : Prop where
  events : w.sched.events = w.timers.map Prod.snd
  pending : List.Forall₂ (Sourced w.passes) w.sched.pending w.pendingFrom
  staging : List.Forall₂ (Sourced w.passes) w.sched.staging w.stagingFrom
  fresh : ∀ x ∈ w.fired ++ w.timers, x.1 < w.born
  once : ((w.fired ++ w.timers).map Prod.fst).Nodup
  clock : ∀ p ∈ w.passes, p.tv.Normalised
  due : ∀ p ∈ w.passes, ∀ x ∈ p.fired, timercmpLt x.2.t p.tv = true
  slept : ∀ co sl, w.asleep co = some sl → Slept w.passes w.timers w.born sl
  returned : ∀ r ∈ w.returns, r.till ≤ w.passes.length ∧ InTime w.passes r

end TimerWorld

theorem Sourced.append {passes : List Pass} {entry : PendingEntry} {source : Option Nat}
    (h : Sourced passes entry source) (more : List Pass) :
    Sourced (passes ++ more) entry source := by
  intro k hk
  rcases h k hk with ⟨p, hp, hfired⟩
  exact ⟨p, List.mem_append_left _ hp, hfired⟩

theorem InTime.append {passes : List Pass} {r : SleepReturn} (h : InTime passes r)
    (htill : r.till ≤ passes.length) (more : List Pass) : InTime (passes ++ more) r := by
  intro hmsec hsource
  rw [List.take_append_of_le_length htill]
  exact h hmsec hsource

namespace TimerWorld

variable {w : TimerWorld}

-- What a pass does to the events is what it does to the numbered events.
theorem Kept.scheduleEvents (h : Kept w) (rule : TopRule) (tv : Timeval) :
    w.sched.scheduleEvents rule tv = w.sched.swept ((w.sweepTimers rule tv).map Prod.snd) := by
  unfold Sched.scheduleEvents sweepTimers
  rw [Sched.scheduleEventsLoop_swept, sweep_map, h.events, List.length_map]

theorem sweepTimers_perm (w : TimerWorld) (rule : TopRule) (tv : Timeval) :
    ((w.sweepTimers rule tv).fired ++ (w.sweepTimers rule tv).zombie.toList ++
      (w.sweepTimers rule tv).left).Perm w.timers :=
  sweep_perm _ _

theorem fired_notePass (w : TimerWorld) (rule : TopRule) (tv : Timeval) :
    (w.notePass rule tv).fired = w.fired ++ (w.sweepTimers rule tv).fired := by
  unfold fired notePass
  rw [List.flatMap_append, List.flatMap_singleton]

-- A pass loses the event it threw at, and none other.
theorem notePass_numbered (w : TimerWorld) (rule : TopRule) (tv : Timeval) :
    ((w.notePass rule tv).fired ++ (w.notePass rule tv).timers).Sublist
      (w.fired ++ ((w.sweepTimers rule tv).fired ++ (w.sweepTimers rule tv).zombie.toList ++
        (w.sweepTimers rule tv).left)) := by
  rw [fired_notePass, List.append_assoc]
  apply List.Sublist.append_left
  exact (List.sublist_append_left _ _).append_right _

theorem notePass_subset (w : TimerWorld) (rule : TopRule) (tv : Timeval) :
    ∀ x ∈ (w.notePass rule tv).fired ++ (w.notePass rule tv).timers,
      x ∈ w.fired ++ w.timers := by
  intro x hx
  have hmem := (w.notePass_numbered rule tv).subset hx
  exact ((w.sweepTimers_perm rule tv).append_left w.fired).subset hmem

-- A pass: its entries come from events that it has scheduled, and these were due.
theorem Kept.pass (h : Kept w) (rule : TopRule) {tv : Timeval} (htv : tv.Normalised)
    {m : Machine} (hm : m.sched = (w.sched.scheduleEvents rule tv).state) :
    Kept ((w.notePass rule tv).withMachine m) where
  events := by
    show m.sched.events = (w.sweepTimers rule tv).left.map Prod.snd
    rw [hm, h.scheduleEvents, Sched.swept_events]
    rfl
  pending := by
    show List.Forall₂ (Sourced (w.passes ++ [⟨tv, (w.sweepTimers rule tv).fired⟩]))
      m.sched.pending (w.pendingFrom ++ _)
    rw [hm, h.scheduleEvents, Sched.swept_pending]
    apply List.rel_append
    · exact h.pending.imp fun _ _ hsrc => hsrc.append _
    · show List.Forall₂ _ (((w.sweepTimers rule tv).fired.map Prod.snd).map Event.entry)
        ((w.sweepTimers rule tv).fired.map fun x => some x.1)
      rw [List.map_map, List.forall₂_map_left_iff, List.forall₂_map_right_iff, List.forall₂_same]
      intro x hx k hk
      obtain rfl := Option.some.inj hk
      exact ⟨_, List.mem_append_right _ (.head _), x.2, hx, rfl⟩
  staging := by
    show List.Forall₂ (Sourced (w.passes ++ [⟨tv, (w.sweepTimers rule tv).fired⟩]))
      m.sched.staging w.stagingFrom
    rw [hm, h.scheduleEvents, Sched.swept_staging]
    exact h.staging.imp fun _ _ hsrc => hsrc.append _
  fresh := fun x hx => h.fresh x (w.notePass_subset rule tv x hx)
  once := by
    have hall := ((w.sweepTimers_perm rule tv).append_left w.fired).map Prod.fst
    exact (hall.nodup_iff.mpr h.once).sublist ((w.notePass_numbered rule tv).map Prod.fst)
  clock := by
    intro p hp
    rcases List.mem_append.mp hp with hp | hp
    · exact h.clock p hp
    · obtain rfl := List.mem_singleton.mp hp
      exact htv
  due := by
    intro p hp x hx
    rcases List.mem_append.mp hp with hp | hp
    · exact h.due p hp x hx
    · obtain rfl := List.mem_singleton.mp hp
      exact ((sweep_due _ _).1 x hx).1
  slept := by
    intro co sl hsl
    have hs := h.slept co sl hsl
    refine ⟨hs.clock, hs.timer, ?_, ?_, ?_⟩
    · show sl.since ≤ (w.passes ++ _).length
      rw [List.length_append]
      exact Nat.le_add_right_of_le hs.since
    · show ∀ p ∈ (w.passes ++ _).take sl.since, _
      rw [List.take_append_of_le_length hs.since]
      exact hs.before
    · exact fun x hx => hs.deadline x (w.notePass_subset rule tv x hx)
  returned := by
    intro r hr
    have hret := h.returned r hr
    refine ⟨?_, hret.2.append hret.1 _⟩
    show r.till ≤ (w.passes ++ _).length
    rw [List.length_append]
    exact Nat.le_add_right_of_le hret.1

-- What changes neither the events nor the lists.
theorem Kept.withMachine (h : Kept w) {m : Machine} (hevents : m.sched.events = w.sched.events)
    (hpending : m.sched.pending = w.sched.pending) (hstaging : m.sched.staging = w.sched.staging) :
    Kept (w.withMachine m) where
  events := hevents.trans h.events
  pending := by
    show List.Forall₂ _ m.sched.pending w.pendingFrom
    rw [hpending]
    exact h.pending
  staging := by
    show List.Forall₂ _ m.sched.staging w.stagingFrom
    rw [hstaging]
    exact h.staging
  fresh := h.fresh
  once := h.once
  clock := h.clock
  due := h.due
  slept := h.slept
  returned := h.returned

-- A new event, which may be the one of a `sleep` that begins here.
theorem Kept.event (h : Kept w) {e : Event} {m : Machine}
    (hevents : m.sched.events = e :: w.sched.events) (hpending : m.sched.pending = w.sched.pending)
    (hstaging : m.sched.staging = w.sched.staging) : Kept ((w.noteEvent e).withMachine m) := by
  have hborn : Kept ((w.noteEvent e).withMachine
      ⟨{ w.sched with events := e :: w.sched.events }, w.pc⟩) := {
    events := by
      show e :: w.sched.events = ((w.born, e) :: w.timers).map Prod.snd
      rw [h.events]
      rfl
    pending := h.pending
    staging := h.staging
    fresh := by
      intro x hx
      show x.1 < w.born + 1
      rcases List.mem_cons.mp (List.perm_middle.subset hx) with rfl | hx
      · exact Nat.lt_succ_self _
      · exact Nat.lt_succ_of_lt (h.fresh x hx)
    once := by
      show ((w.fired ++ (w.born, e) :: w.timers).map Prod.fst).Nodup
      rw [(List.perm_middle.map Prod.fst).nodup_iff, List.map_cons, List.nodup_cons]
      refine ⟨fun hmem => ?_, h.once⟩
      rcases List.mem_map.mp hmem with ⟨x, hx, hx'⟩
      exact absurd hx' (Nat.ne_of_lt (h.fresh x hx))
    clock := h.clock
    due := h.due
    slept := by
      intro co sl hsl
      have hs := h.slept co sl hsl
      refine ⟨hs.clock, Nat.lt_succ_of_lt hs.timer, hs.since, hs.before, fun x hx hid => ?_⟩
      rcases List.mem_cons.mp (List.perm_middle.subset hx) with rfl | hx
      · exact absurd hid.symm (Nat.ne_of_lt hs.timer)
      · exact hs.deadline x hx hid
    returned := h.returned }
  exact hborn.withMachine hevents hpending hstaging

theorem mem_fired {p : Pass} {x : Nat × Event} (hp : p ∈ w.passes) (hx : x ∈ p.fired) :
    x ∈ w.fired :=
  List.mem_flatMap.mpr ⟨p, hp, hx⟩

-- `sleep` inserts its event, and no pass has seen it yet.
theorem Kept.sleep (h : Kept w) {now : Timeval} {msec : Int} {me : CoroId} {m : Machine}
    (hnow : now.Normalised)
    (hm : Kept ((w.noteEvent ⟨sleepDeadline now msec, 0, me⟩).withMachine m)) :
    Kept { (w.noteEvent ⟨sleepDeadline now msec, 0, me⟩).withMachine m with
      asleep := Function.update w.asleep me (some ⟨now, msec, w.born, w.passes.length⟩) } where
  events := hm.events
  pending := hm.pending
  staging := hm.staging
  fresh := hm.fresh
  once := hm.once
  clock := hm.clock
  due := hm.due
  slept := by
    intro co sl hsl
    rcases Maps.update_eq hsl with ⟨-, hsl'⟩ | ⟨-, hsl'⟩
    · obtain rfl := Option.some.inj hsl'
      refine ⟨hnow, Nat.lt_succ_self _, Nat.le_refl _, ?_, ?_⟩
      · intro p hp x hx
        have hfired : x ∈ w.fired := mem_fired (List.mem_of_mem_take hp) hx
        exact Nat.ne_of_lt (h.fresh x (List.mem_append_left _ hfired))
      · intro x hx hid
        rcases List.mem_cons.mp (List.perm_middle.subset hx) with rfl | hx
        · rfl
        · exact absurd hid (Nat.ne_of_lt (h.fresh x hx))
    · exact hm.slept co sl hsl'
  returned := hm.returned

-- A pass after the call has scheduled the event of the sleep, at a later reading.
theorem Kept.inTime (h : Kept w) {entry : PendingEntry} {source : Option Nat} {sl : Sleep}
    (hs : Slept w.passes w.timers w.born sl) (hsource : Sourced w.passes entry source) :
    InTime w.passes ⟨sl, source, w.passes.length⟩ := by
  intro hmsec hown
  rcases hsource _ hown with ⟨p, hp, e, he, -⟩
  refine ⟨p, ?_, ?_⟩
  · show p ∈ (w.passes.take w.passes.length).drop sl.since
    rw [List.take_length]
    rw [← List.take_append_drop sl.since w.passes] at hp
    rcases List.mem_append.mp hp with hearly | hlate
    · exact absurd rfl (hs.before p hearly _ he)
    · exact hlate
  · have hdeadline : e.t = sleepDeadline sl.now sl.msec :=
      hs.deadline (sl.timer, e) (List.mem_append_left _ (mem_fired hp he)) rfl
    have hexact := sleepDeadline_exact hs.clock hmsec
    have hdue : timercmpLt e.t p.tv = true := h.due p hp _ he
    rw [hdeadline, timercmpLt_iff hexact.1 (h.clock p hp)] at hdue
    rw [← hexact.2]
    exact hdue

theorem noteResume_toMachine (w : TimerWorld) (co : CoroId) (source : Option Nat) :
    (w.noteResume co source).toMachine = w.toMachine := by
  unfold noteResume
  cases w.asleep co <;> rfl

theorem Kept.resume (h : Kept w) {entry : PendingEntry} {co : CoroId} {source : Option Nat}
    (hsource : Sourced w.passes entry source) : Kept (w.noteResume co source) := by
  unfold noteResume
  cases hasleep : w.asleep co with
  | none => exact h
  | some sl =>
    exact {
      events := h.events
      pending := h.pending
      staging := h.staging
      fresh := h.fresh
      once := h.once
      clock := h.clock
      due := h.due
      slept := by
        intro c sl' hsl
        rcases Maps.update_eq hsl with ⟨-, hnone⟩ | ⟨-, hsl'⟩
        · cases hnone
        · exact h.slept c sl' hsl'
      returned := by
        intro r hr
        rcases List.mem_append.mp hr with hr | hr
        · exact h.returned r hr
        · obtain rfl := List.mem_singleton.mp hr
          exact ⟨Nat.le_refl _, h.inTime (h.slept co sl hasleep) hsource⟩ }

theorem Kept.loopHead (h : Kept w) {rule : TopRule} {tv : Timeval} (htv : tv.Normalised) :
    Kept ((if w.sched.exit then w else w.notePass rule tv).withMachine
      (Machine.loopHead rule tv w.sched)) := by
  unfold Machine.loopHead
  by_cases hexit : w.sched.exit = true
  · rw [if_pos hexit, if_pos hexit]
    exact h.withMachine rfl rfl rfl
  · rw [if_neg hexit, if_neg hexit]
    exact h.pass rule htv rfl

theorem Kept.test (h : Kept w) {m : Machine} (hm : w.toMachine.step .test = some m) :
    Kept ((w.note .test).withMachine m) := by
  rcases Machine.step_test hm with ⟨-, ⟨rfl, hlen⟩ | ⟨rfl, hlen, -⟩ | ⟨rfl, hlen, -⟩⟩
  · rw [show w.note .test = { w with pendingFrom := w.stagingFrom, stagingFrom := w.pendingFrom }
      from if_pos hlen]
    exact ⟨h.events, h.staging, h.pending, h.fresh, h.once, h.clock, h.due, h.slept, h.returned⟩
  · rw [show w.note .test = w from if_neg (by omega)]
    exact h.withMachine rfl rfl rfl
  · rw [show w.note .test = w from if_neg (by omega)]
    exact h.withMachine rfl rfl rfl

theorem Kept.next (h : Kept w) {rule : TopRule} {tv : Timeval} (htv : tv.Normalised) {m : Machine}
    (hm : w.toMachine.step (.next rule tv) = some m) :
    Kept ((w.note (.next rule tv)).withMachine m) := by
  rcases Machine.step_next hm with ⟨i, hpc, rfl⟩
  unfold note Machine.nextEntry
  rw [hpc]
  dsimp only
  cases hget : w.sched.staging[i]? with
  | none =>
    -- the end of the round: `_staging` is cleared before the pass
    have hclear : Kept (({ w with stagingFrom := [] } : TimerWorld).withMachine
        ⟨{ w.sched with staging := [] }, w.pc⟩) :=
      ⟨h.events, h.pending, .nil, h.fresh, h.once, h.clock, h.due, h.slept, h.returned⟩
    exact hclear.pass rule htv rfl
  | some entry =>
    rcases entry with ⟨co, arg⟩
    dsimp only
    by_cases hdead : (w.sched.coros co).dead = true
    · rw [if_pos hdead, Sched.resume_dead hdead]
      exact h.withMachine rfl rfl rfl
    · rw [if_neg hdead, Sched.resume_alive (by simpa using hdead)]
      have hsource : Sourced w.passes (co, arg) (w.stagingFrom[i]?).join := by
        intro k hk
        rcases List.getElem?_eq_some_iff.mp hget with ⟨hi, hentry⟩
        rcases List.getElem?_eq_some_iff.mp (Option.join_eq_some_iff.mp hk) with ⟨hj, hfrom⟩
        have hat := h.staging.get hi hj
        rw [List.get_eq_getElem, List.get_eq_getElem, hentry, hfrom] at hat
        exact hat k rfl
      have hsame := noteResume_toMachine w co (w.stagingFrom[i]?).join
      apply (h.resume hsource).withMachine
      · rw [hsame]
        rfl
      · rw [hsame]
        rfl
      · rw [hsame]
        rfl

theorem Kept.call (h : Kept w) {c : Call} {m : Machine} (hm : w.toMachine.step (.call c) = some m) :
    Kept ((w.note (.call c)).withMachine m) := by
  rcases Machine.step_call hm with ⟨-, rfl⟩
  cases c with
  | schedule co arg =>
    have hsched := Machine.callSchedule_sched w.toMachine co arg
    show Kept ((if (w.sched.coros co).dead then w
      else { w with pendingFrom := w.pendingFrom ++ [none] }).withMachine
        (w.toMachine.callSchedule co arg))
    by_cases hdead : (w.sched.coros co).dead = true
    · rw [if_pos hdead]
      rw [Sched.schedule_dead hdead] at hsched
      apply h.withMachine
      · rw [hsched]
        rfl
      · rw [hsched]
        rfl
      · rw [hsched]
        rfl
    · rw [if_neg hdead]
      rw [Machine.callSchedule_alive _ (by simpa using hdead)]
      have hnone : Sourced w.passes (co, arg) none := fun _ hk => nomatch hk
      exact {
        events := h.events
        pending := List.rel_append h.pending (.cons hnone .nil)
        staging := h.staging
        fresh := h.fresh
        once := h.once
        clock := h.clock
        due := h.due
        slept := h.slept
        returned := h.returned }
  | insertEvent t co args => exact h.event rfl rfl rfl
  | exit => exact h.withMachine rfl rfl rfl

theorem Kept.machine (h : Kept w) {a : Act} {m : Machine} (ha : (TimerAct.machine a).Normalised)
    (hm : w.toMachine.step a = some m) : Kept ((w.note a).withMachine m) := by
  cases a with
  | enter rule tv =>
    rcases Machine.step_enter hm with ⟨-, rfl⟩
    exact h.loopHead ha
  | test => exact h.test hm
  | next rule tv => exact h.next ha hm
  | call c => exact h.call hm
  | yield co arg =>
    rcases Machine.step_yield hm with ⟨i, -, rfl⟩
    exact h.withMachine rfl rfl rfl
  | finish =>
    rcases Machine.step_finish hm with ⟨i, co, -, -, rfl⟩
    rcases Machine.finish_eq w.sched co with ⟨coros, hfinish, -⟩
    rw [hfinish]
    exact h.withMachine rfl rfl rfl
  | pollReturn rule tv =>
    rcases Machine.step_pollReturn hm with ⟨-, rfl⟩
    exact h.loopHead ha
  | pollThrow =>
    rcases Machine.step_pollThrow hm with ⟨-, rfl⟩
    exact h.withMachine rfl rfl rfl

theorem Kept.step {w' : TimerWorld} {a : TimerAct} (h : Kept w) (ha : a.Normalised)
    (hstep : w.step a = some w') : Kept w' := by
  cases a with
  | machine a =>
    rcases Option.map_eq_some_iff.mp hstep with ⟨m, hm, rfl⟩
    exact h.machine ha hm
  | sleep self now msec =>
    simp only [TimerWorld.step] at hstep
    split at hstep
    · rename_i i me hpc hcurrent
      obtain rfl := Option.some.inj hstep
      exact h.sleep ha (h.event rfl rfl rfl)
    · cases hstep

theorem kept_init : Kept {} where
  events := rfl
  pending := .nil
  staging := .nil
  fresh := fun _ hx => absurd hx List.not_mem_nil
  once := .nil
  clock := fun _ hp => absurd hp List.not_mem_nil
  due := fun _ hp => absurd hp List.not_mem_nil
  slept := fun _ _ hsl => nomatch hsl
  returned := fun _ hr => absurd hr List.not_mem_nil

theorem runs_kept {acts : List TimerAct} {w : TimerWorld} (run : Runs acts w)
    (hclock : ∀ a ∈ acts, a.Normalised) : Kept w :=
  run.invariant_of_labels (fun _ _ _ h ha hstep => h.step ha hstep) hclock kept_init

/-! ## The history is that of the machine -/

/-- The step `a` calls `schedule_events`, in the state `s`, and the clock reads `tv`. -/
inductive Passes (w : TimerWorld) (rule : TopRule) (tv : Timeval) : TimerAct → Sched → Prop
  | enter (hpc : w.pc = .outside) (hexit : w.sched.exit = false) :
      Passes w rule tv (.machine (.enter rule tv)) w.sched
  | pollReturn (hpc : w.pc = .polling) (hexit : w.sched.exit = false) :
      Passes w rule tv (.machine (.pollReturn rule tv)) w.sched
  | roundEnd {i : Nat} (hpc : w.pc = .staging i) (hend : w.sched.staging[i]? = none) :
      Passes w rule tv (.machine (.next rule tv)) { w.sched with staging := [] }

end TimerWorld

end Coropp
