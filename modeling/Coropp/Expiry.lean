import Coropp.Sched

/-!
# What a pass over the timers does

`schedule_events` as a function of the events: which ones it schedules and in what order, which one
makes it throw, and which ones it leaves.  The elements may be more than the events, so that equal
events can be told apart.
-/

namespace Coropp

/-- What a pass has done: the events it scheduled, the one of a dead coroutine that made it throw,
    and those it left. -/
structure Swept (α : Type) where
  fired : List α
  zombie : Option α := none
  left : List α

section Sweep

variable {α : Type} (val : α → Event) (rule : TopRule) (tv : Timeval) (dead : CoroId → Bool)

/-- At most `n` turns of the loop of `schedule_events`. -/
def sweep : Nat → List α → Swept α
  | 0, xs => { fired := [], left := xs }
  | n + 1, xs =>
    if h : xs.map val = [] then { fired := [], left := xs }
    else
      let e := rule.top (xs.map val) h
      if timercmpLt e.t tv then
        let left := xs.eraseP fun x => val x = e
        match xs.find? fun x => val x = e with
        | some x =>
          if dead e.coro then { fired := [], zombie := some x, left := left }
          else
            let r := sweep n left
            { r with fired := x :: r.fired }
        | none => { fired := [], left := xs }
      else { fired := [], left := xs }

def Swept.map {β : Type} (f : α → β) (r : Swept α) : Swept β where
  fired := r.fired.map f
  zombie := r.zombie.map f
  left := r.left.map f

-- One turn: nothing is due any more, or the top is taken out.
theorem sweep_cases (n : Nat) (xs : List α) :
    (sweep val rule tv dead (n + 1) xs = { fired := [], left := xs } ∧
        ∀ x ∈ xs, timercmpLt (val x).t tv = false) ∨
      ∃ x as bs, xs = as ++ x :: bs ∧ timercmpLt (val x).t tv = true ∧
        (∀ y ∈ xs, timercmpLt (val y).t (val x).t = false) ∧
        (∃ h, rule.top (xs.map val) h = val x) ∧ (∀ y ∈ as, val y ≠ val x) ∧
        sweep val rule tv dead (n + 1) xs =
          if dead (val x).coro then { fired := [], zombie := some x, left := as ++ bs }
          else
            { sweep val rule tv dead n (as ++ bs) with
              fired := x :: (sweep val rule tv dead n (as ++ bs)).fired } := by
  rw [sweep]
  split
  · rename_i hnil
    rw [List.map_eq_nil_iff] at hnil
    subst hnil
    exact .inl ⟨rfl, fun _ hx => absurd hx List.not_mem_nil⟩
  · rename_i hne
    have hmem := rule.top_mem _ hne
    have hleast := rule.top_least _ hne
    have htop : ∃ h, rule.top (xs.map val) h = rule.top (xs.map val) hne := ⟨hne, rfl⟩
    generalize rule.top (xs.map val) hne = e at hmem hleast htop ⊢
    have hmin : ∀ y ∈ xs, timercmpLt (val y).t e.t = false := by
      intro y hy
      rw [← timercmpGt_eq_lt]
      exact hleast _ (List.mem_map_of_mem hy)
    dsimp only
    split
    · rename_i hdue
      rcases List.mem_map.mp hmem with ⟨y, hy, hval⟩
      cases hfind : xs.find? fun x => val x = e with
      | none =>
        have hnone := List.find?_eq_none.mp hfind y hy
        exact absurd (decide_eq_true hval) hnone
      | some x =>
        rcases List.find?_eq_some_iff_append.mp hfind with ⟨hx, as, bs, hxs, has⟩
        obtain rfl : val x = e := of_decide_eq_true hx
        have hfront : ∀ y ∈ as, ¬decide (val y = val x) = true := by
          intro y hy
          simpa using has y hy
        have herase : xs.eraseP (fun y => val y = val x) = as ++ bs := by
          rw [hxs, List.eraseP_append_right _ hfront,
            List.eraseP_cons_of_pos (p := fun y => decide (val y = val x)) hx]
        refine .inr ⟨x, as, bs, hxs, hdue, hmin, htop, fun y hy => by simpa using hfront y hy, ?_⟩
        rw [herase]
    · rename_i hdue
      refine .inl ⟨rfl, fun x hx => ?_⟩
      exact timercmpLt_negTrans (hmin x hx) (by simpa using hdue)

variable {val rule tv dead}

-- A pass takes each event out once, or leaves it.
theorem sweep_perm (n : Nat) (xs : List α) :
    ((sweep val rule tv dead n xs).fired ++ (sweep val rule tv dead n xs).zombie.toList ++
      (sweep val rule tv dead n xs).left).Perm xs := by
  induction n generalizing xs with
  | zero => exact .refl _
  | succ n ih =>
    rcases sweep_cases val rule tv dead n xs with
      ⟨heq, -⟩ | ⟨x, as, bs, hxs, -, -, -, -, heq⟩
    · rw [heq]
      exact .refl _
    · rw [heq, hxs]
      split
      · show (x :: (as ++ bs)).Perm _
        exact List.perm_middle.symm
      · exact ((ih (as ++ bs)).cons x).trans List.perm_middle.symm

-- What a pass takes out is due, and it throws at a dead coroutine only.
theorem sweep_due (n : Nat) (xs : List α) :
    (∀ x ∈ (sweep val rule tv dead n xs).fired,
      timercmpLt (val x).t tv = true ∧ dead (val x).coro = false) ∧
    ∀ z, (sweep val rule tv dead n xs).zombie = some z →
      timercmpLt (val z).t tv = true ∧ dead (val z).coro = true := by
  induction n generalizing xs with
  | zero => exact ⟨fun _ hx => absurd hx List.not_mem_nil, fun _ hz => nomatch hz⟩
  | succ n ih =>
    rcases sweep_cases val rule tv dead n xs with
      ⟨heq, -⟩ | ⟨x, as, bs, hxs, hdue, -, -, -, heq⟩
    · rw [heq]
      exact ⟨fun _ hx => absurd hx List.not_mem_nil, fun _ hz => nomatch hz⟩
    · rw [heq]
      split
      · rename_i hdead
        refine ⟨fun _ hx => absurd hx List.not_mem_nil, fun z hz => ?_⟩
        obtain rfl := Option.some.inj hz
        exact ⟨hdue, hdead⟩
      · rename_i hdead
        refine ⟨fun y hy => ?_, (ih (as ++ bs)).2⟩
        rcases List.mem_cons.mp hy with rfl | hy
        · exact ⟨hdue, by simpa using hdead⟩
        · exact (ih (as ++ bs)).1 y hy

-- A pass that does not throw leaves nothing that is due.
theorem sweep_left {n : Nat} {xs : List α} (hn : xs.length ≤ n)
    (hzombie : (sweep val rule tv dead n xs).zombie = none) :
    ∀ x ∈ (sweep val rule tv dead n xs).left, timercmpLt (val x).t tv = false := by
  induction n generalizing xs with
  | zero =>
    intro x hx
    rw [List.eq_nil_of_length_eq_zero (Nat.le_zero.mp hn)] at hx
    exact absurd hx List.not_mem_nil
  | succ n ih =>
    rcases sweep_cases val rule tv dead n xs with
      ⟨heq, hnone⟩ | ⟨x, as, bs, hxs, -, -, -, -, heq⟩
    · rw [heq]
      exact hnone
    · rw [heq] at hzombie ⊢
      split at hzombie
      · cases hzombie
      · rename_i hdead
        rw [if_neg hdead]
        apply ih _ hzombie
        rw [hxs] at hn
        simp only [List.length_append, List.length_cons] at hn ⊢
        omega

-- Events are taken out in the order of their deadlines.
theorem sweep_sorted (n : Nat) (xs : List α) :
    ((sweep val rule tv dead n xs).fired ++
      (sweep val rule tv dead n xs).zombie.toList).Pairwise fun a b =>
        timercmpLt (val b).t (val a).t = false := by
  induction n generalizing xs with
  | zero => exact .nil
  | succ n ih =>
    rcases sweep_cases val rule tv dead n xs with
      ⟨heq, -⟩ | ⟨x, as, bs, hxs, -, hmin, -, -, heq⟩
    · rw [heq]
      exact .nil
    · rw [heq]
      split
      · exact List.pairwise_singleton _ _
      · refine List.pairwise_cons.mpr ⟨fun y hy => ?_, ih (as ++ bs)⟩
        have hy' : y ∈ as ++ bs := (sweep_perm n (as ++ bs)).subset (List.mem_append_left _ hy)
        apply hmin y
        rw [hxs]
        exact List.perm_middle.symm.subset (List.mem_cons_of_mem _ hy')

-- Looking at the events alone, a pass does the same.
theorem sweep_map (n : Nat) (xs : List α) :
    (sweep val rule tv dead n xs).map val = sweep id rule tv dead n (xs.map val) := by
  induction n generalizing xs with
  | zero => rfl
  | succ n ih =>
    rw [sweep, sweep]
    simp only [List.map_id, id_eq]
    split
    · rfl
    · split
      · rw [List.find?_map, List.eraseP_map, ← ih]
        generalize rule.top (xs.map val) _ = e
        have hcomp : (fun x => decide (x = e)) ∘ val = fun x => decide (val x = e) := rfl
        rw [hcomp]
        cases xs.find? fun x => val x = e with
        | none => rfl
        | some x =>
          dsimp only [Option.map_some]
          split <;> rfl
      · rfl

end Sweep

namespace Sched

/-- The scheduler after a pass that has done `r`. -/
def swept (s : Sched) (r : Swept Event) : Outcome Sched :=
  let s' := { s.push (r.fired.map Event.entry) with events := r.left }
  match r.zombie with
  | some z => s'.raise z.coro
  | none => .returned s'

section Swept

variable (s : Sched) (r : Swept Event)

theorem swept_events : (s.swept r).state.events = r.left := by
  unfold swept
  cases r.zombie <;> rfl

theorem swept_pending : (s.swept r).state.pending = s.pending ++ r.fired.map Event.entry := by
  unfold swept
  cases r.zombie <;> rfl

theorem swept_accepted :
    (s.swept r).state.hist.accepted = s.hist.accepted ++ r.fired.map Event.entry := by
  unfold swept
  cases r.zombie <;> rfl

theorem swept_resumed : (s.swept r).state.hist.resumed = s.hist.resumed := by
  unfold swept
  cases r.zombie <;> rfl

theorem swept_staging : (s.swept r).state.staging = s.staging := by
  unfold swept
  cases r.zombie <;> rfl

end Swept

theorem scheduleEventsLoop_swept (rule : TopRule) (tv : Timeval) (n : Nat) (s : Sched) :
    s.scheduleEventsLoop rule tv n =
      s.swept (sweep id rule tv (fun c => (s.coros c).dead) n s.events) := by
  induction n generalizing s with
  | zero => simp [scheduleEventsLoop, sweep, swept]
  | succ n ih =>
    rcases sweep_cases id rule tv (fun c => (s.coros c).dead) n s.events with
      ⟨heq, hnone⟩ | ⟨x, as, bs, hxs, hdue, -, ⟨hne, htop⟩, has, heq⟩
    · rw [heq, scheduleEventsLoop]
      split
      · simp [swept]
      · rename_i hne
        have hnot := hnone _ (rule.top_mem s.events hne)
        dsimp only
        rw [if_neg (by simpa using hnot)]
        simp [swept]
    · have herase : s.events.erase x = as ++ bs := by
        have hnot : x ∉ as := fun hmem => has x hmem rfl
        rw [hxs, List.erase_append_right _ hnot, List.erase_cons_head]
      have hne' : s.events ≠ [] := by
        rw [hxs]
        simp
      have htop' : rule.top s.events hne' = x := by
        simp only [List.map_id] at htop
        exact htop
      rw [heq, scheduleEventsLoop, dif_neg hne']
      dsimp only [id_eq]
      rw [htop', if_pos (show timercmpLt x.t tv = true from hdue)]
      have hpop : s.popEvent x = { s with events := as ++ bs } := by
        rw [popEvent, herase]
      rw [hpop]
      by_cases hdead : (s.coros x.coro).dead = true
      · rw [if_pos hdead, schedule_dead (s := { s with events := as ++ bs }) hdead]
        simp only [swept, List.map_nil, push_nil]
        rfl
      · have halive : (s.coros x.coro).dead = false := by simpa using hdead
        rw [if_neg hdead, schedule_alive (s := { s with events := as ++ bs }) halive,
          Outcome.bind_returned, ih]
        show Sched.swept _ (sweep id rule tv (fun c => (s.coros c).dead) n (as ++ bs)) = _
        unfold swept
        simp [push, Event.entry]

/-- A pass at the reading `tv` has scheduled the events with earlier deadlines and no others, in the
    order of their deadlines.  Where it met a dead coroutine it threw, and that event is gone. -/
def PassExact (s : Sched) (tv : Timeval) (out : Outcome Sched) : Prop :=
  ∃ r : Swept Event, out = s.swept r ∧
    (r.fired ++ r.zombie.toList ++ r.left).Perm s.events ∧
    (r.fired ++ r.zombie.toList).Pairwise (fun a b => timercmpLt b.t a.t = false) ∧
    (∀ e ∈ r.fired, timercmpLt e.t tv = true) ∧
    (r.zombie = none → ∀ e ∈ r.left, timercmpLt e.t tv = false) ∧
    ∀ z, r.zombie = some z → timercmpLt z.t tv = true ∧ (s.coros z.coro).dead = true

theorem scheduleEvents_exact (rule : TopRule) (tv : Timeval) (s : Sched) :
    s.PassExact tv (s.scheduleEvents rule tv) := by
  refine ⟨_, scheduleEventsLoop_swept rule tv _ s, sweep_perm _ _, sweep_sorted _ _, ?_, ?_, ?_⟩
  · exact fun e he => ((sweep_due _ _).1 e he).1
  · exact fun hzombie => sweep_left (Nat.le_refl _) hzombie
  · exact (sweep_due _ _).2

end Sched

end Coropp
