import Coropp.Expiry
import Coropp.EventLoop

/-!
# After an exception

A `Dead_Coro` that `resume` throws leaves `event_loop` in the middle of a round: `_staging` is left
as it is, with the entries before and behind the one that threw.  No iterator stands in it any
more.  `event_loop` called again begins with `_pending`, and the next swap makes all of `_staging`
pending.
-/

namespace Coropp

open Transition

/-- The entries of one coroutine. -/
def entriesOf (c : CoroId) (es : List PendingEntry) : List PendingEntry :=
  es.filter fun e => e.1 = c

theorem entriesOf_append (c : CoroId) (es fs : List PendingEntry) :
    entriesOf c (es ++ fs) = entriesOf c es ++ entriesOf c fs :=
  List.filter_append ..

theorem entriesOf_cons_ne {c : CoroId} {e : PendingEntry} (h : e.1 ≠ c) (es : List PendingEntry) :
    entriesOf c (e :: es) = entriesOf c es :=
  List.filter_cons_of_neg (by simpa using h)

-- A round in progress has not come past its entry number `n`.
def Pc.within (n : Nat) : Pc → Prop
  | .staging i => i ≤ n
  | .inside i => i < n
  | .outside | .runPending | .polling => True

theorem Pc.within_between {pc : Pc} (h : pc.inRound = false) (n : Nat) : pc.within n := by
  cases pc with
  | staging i => cases h
  | inside i => cases h
  | _ => trivial

namespace Machine

/-- No accepted entry of a coroutine that is not among `raised` is lost, and none is resumed twice:
    each one has been resumed, or is in `queued`. -/
def Accounted (raised : List CoroId) (accepted resumed queued : List PendingEntry) : Prop :=
  ∀ c, c ∉ raised →
    (entriesOf c accepted).Perm (entriesOf c resumed ++ entriesOf c queued)

/-- The entries of the coroutines that no exception has named are accounted for: the round in
    progress and `_pending` hold those that have not been resumed. -/
def Undisturbed (m : Machine) : Prop :=
  Accounted m.sched.hist.raised m.sched.hist.accepted (m.sched.hist.resumed.map Resumed.entry)
    (m.unprocessed ++ m.sched.pending)

/-- Nothing but entries of coroutines that an exception has named. -/
def OnlyOf (raised : List CoroId) (es : List PendingEntry) : Prop :=
  ∀ e ∈ es, e.1 ∈ raised

/-- No entry of another coroutine is behind one whose resume throws, and none is in what is left of
    an interrupted round when the next one begins. -/
def Harmless (m : Machine) : Act → Prop
  | .next _ _ =>
    match m.pc with
    | .staging i =>
      ∀ co arg, m.sched.staging[i]? = some (co, arg) → (m.sched.coros co).dead = true →
        OnlyOf (m.sched.hist.raised ++ [co]) (m.sched.staging.drop (i + 1))
    | _ => True
  | .test => m.sched.pending.length > 0 → OnlyOf m.sched.hist.raised m.sched.staging
  | _ => True

section Accounts

variable {raised raised' : List CoroId} {accepted resumed queued : List PendingEntry}

theorem Accounted.mono (h : Accounted raised accepted resumed queued) (hsub : raised ⊆ raised') :
    Accounted raised' accepted resumed queued :=
  fun c hc => h c fun hmem => hc (hsub hmem)

theorem Accounted.push (h : Accounted raised accepted resumed queued) (es : List PendingEntry) :
    Accounted raised (accepted ++ es) resumed (queued ++ es) := by
  intro c hc
  rw [entriesOf_append, entriesOf_append, ← List.append_assoc]
  exact (h c hc).append_right _

-- The first queued entry is resumed.
theorem Accounted.resume {e : PendingEntry}
    (h : Accounted raised accepted resumed (e :: queued)) :
    Accounted raised accepted (resumed ++ [e]) queued := by
  intro c hc
  have hall := h c hc
  rw [show e :: queued = [e] ++ queued from rfl, entriesOf_append, ← List.append_assoc,
    ← entriesOf_append] at hall
  exact hall

-- The first queued entry is dropped, and its coroutine is named by an exception.
theorem Accounted.drop {e : PendingEntry}
    (h : Accounted raised accepted resumed (e :: queued)) :
    Accounted (raised ++ [e.1]) accepted resumed queued := by
  intro c hc
  have hne : e.1 ≠ c := fun he => hc (List.mem_append_right _ (List.mem_singleton.mpr he.symm))
  have hall := h c fun hmem => hc (List.mem_append_left _ hmem)
  rw [entriesOf_cons_ne hne] at hall
  exact hall

theorem onlyOf_iff {es : List PendingEntry} :
    OnlyOf raised es ↔ ∀ c, c ∉ raised → entriesOf c es = [] := by
  constructor
  · intro h c hc
    rw [entriesOf, List.filter_eq_nil_iff]
    intro e he hec
    have hec' : e.1 = c := by simpa using hec
    exact hc (hec' ▸ h e he)
  · intro h e he
    by_contra hnot
    have hmem : e ∈ entriesOf e.1 es := List.mem_filter.mpr ⟨he, by simp⟩
    rw [h e.1 hnot] at hmem
    exact absurd hmem List.not_mem_nil

-- What is queued is known up to permutation.
theorem Accounted.iff_perm (h : Accounted raised accepted resumed queued)
    {queued' : List PendingEntry} :
    Accounted raised accepted resumed queued' ↔
      ∀ c, c ∉ raised → (entriesOf c queued).Perm (entriesOf c queued') := by
  constructor
  · intro h' c hc
    exact (List.perm_append_left_iff _).mp ((h c hc).symm.trans (h' c hc))
  · intro hperm c hc
    exact (h c hc).trans ((hperm c hc).append_left _)

-- Entries that do not belong to the queue enter it.
theorem Accounted.extra_iff (h : Accounted raised accepted resumed queued)
    (extra : List PendingEntry) :
    Accounted raised accepted resumed (queued ++ extra) ↔ OnlyOf raised extra := by
  rw [h.iff_perm, onlyOf_iff]
  constructor
  · intro hperm c hc
    have hlen := (hperm c hc).length_eq
    rw [entriesOf_append, List.length_append] at hlen
    exact List.eq_nil_of_length_eq_zero (by omega)
  · intro hnil c hc
    rw [entriesOf_append, hnil c hc, List.append_nil]

-- Entries are lost from the queue.
theorem Accounted.lost_iff {lost : List PendingEntry}
    (h : Accounted raised accepted resumed (lost ++ queued)) :
    Accounted raised accepted resumed queued ↔ OnlyOf raised lost := by
  rw [h.iff_perm, onlyOf_iff]
  constructor
  · intro hperm c hc
    have hlen := (hperm c hc).length_eq
    rw [entriesOf_append, List.length_append] at hlen
    exact List.eq_nil_of_length_eq_zero (by omega)
  · intro hnil c hc
    rw [entriesOf_append, hnil c hc, List.nil_append]

end Accounts

/-! ## What each step does to the accounts -/

section Steps

variable {m m' : Machine}

-- Between rounds nothing but `_pending` is queued.
theorem undisturbed_between (h : m.pc.inRound = false) :
    m.Undisturbed ↔ Accounted m.sched.hist.raised m.sched.hist.accepted
      (m.sched.hist.resumed.map Resumed.entry) m.sched.pending := by
  unfold Undisturbed
  rw [unprocessed_between h, List.nil_append]

-- A pass over the timers, whether it returns or throws.
theorem undisturbed_pass {s : Sched} (h : Undisturbed ⟨s, .runPending⟩) (rule : TopRule)
    (tv : Timeval) : Undisturbed (resolve (s.scheduleEvents rule tv) .runPending) := by
  have hpc : (resolve (s.scheduleEvents rule tv) .runPending).pc.inRound = false := by
    unfold resolve
    cases (s.scheduleEvents rule tv).isReturned <;> rfl
  have hraised := (Sched.scheduleEvents_raised rule tv s).subset
  have hswept := Sched.scheduleEventsLoop_swept rule tv s.events.length s
  rw [undisturbed_between hpc]
  rw [undisturbed_between rfl] at h
  show Accounted (s.scheduleEvents rule tv).state.hist.raised _ _ _
  unfold resolve
  unfold Sched.scheduleEvents at hraised ⊢
  rw [hswept] at hraised ⊢
  rw [Sched.swept_pending, Sched.swept_accepted, Sched.swept_resumed]
  exact (h.push _).mono hraised

theorem undisturbed_loopHead {s : Sched} (h : Undisturbed ⟨s, .runPending⟩) (rule : TopRule)
    (tv : Timeval) : Undisturbed (loopHead rule tv s) := by
  unfold loopHead
  split
  · exact h
  · exact undisturbed_pass h rule tv

theorem undisturbed_test (h : Undisturbed m) (hstep : m.step .test = some m') :
    Undisturbed m' ↔ Harmless m .test := by
  rcases m with ⟨s, pc⟩
  obtain ⟨rfl : pc = _, ⟨rfl, hlen⟩ | ⟨rfl, hlen, -⟩ | ⟨rfl, hlen, -⟩⟩ := step_test hstep
  · rw [undisturbed_between rfl] at h
    -- the old `_pending` is the round, and what was in `_staging` is `_pending` now
    have hextra := h.extra_iff s.staging
    exact hextra.trans ⟨fun hother _ => hother, fun hharm => hharm hlen⟩
  · exact iff_of_true h fun hpos => absurd hpos (by omega)
  · exact iff_of_true h fun hpos => absurd hpos (by omega)

theorem undisturbed_next {rule : TopRule} {tv : Timeval} (h : Undisturbed m)
    (hstep : m.step (.next rule tv) = some m') : Undisturbed m' ↔ Harmless m (.next rule tv) := by
  rcases m with ⟨s, pc⟩
  obtain ⟨i, rfl : pc = _, rfl⟩ := step_next hstep
  unfold Harmless
  dsimp only
  unfold Undisturbed at h
  rw [unprocessed_staging rfl] at h
  cases hget : s.staging[i]? with
  | none =>
    rw [nextEntry_none hget]
    rw [drop_of_none hget] at h
    have hclear : Undisturbed ⟨{ s with staging := [] }, .runPending⟩ := h
    exact iff_of_true (undisturbed_pass hclear rule tv) fun _ _ he => nomatch he
  | some entry =>
    rcases entry with ⟨co, arg⟩
    rw [nextEntry_some hget]
    rw [drop_of_some hget] at h
    by_cases hdead : (s.coros co).dead = true
    · rw [Sched.resume_dead hdead]
      have hlost : Accounted (s.hist.raised ++ [co]) s.hist.accepted
          (s.hist.resumed.map Resumed.entry) (s.staging.drop (i + 1) ++ s.pending) := h.drop
      have hiff := hlost.lost_iff
      refine (show _ ↔ _ from hiff).trans ⟨fun hother co' arg' he _ => ?_, fun hall => ?_⟩
      · obtain rfl : co = co' := congrArg Prod.fst (Option.some.inj he)
        exact hother
      · exact hall co arg rfl hdead
    · rw [Sched.resume_alive (by simpa using hdead)]
      refine iff_of_true ?_ fun co' arg' he hdead' => ?_
      · show Accounted s.hist.raised s.hist.accepted ((s.switchTo co arg).hist.resumed.map _)
          (s.staging.drop (i + 1) ++ s.pending)
        rw [Sched.switchTo_resumed, List.map_append]
        exact h.resume
      · obtain rfl : co = co' := congrArg Prod.fst (Option.some.inj he)
        exact absurd hdead' hdead

theorem undisturbed_call {c : Call} (h : Undisturbed m) (hstep : m.step (.call c) = some m') :
    Undisturbed m' := by
  rcases step_call hstep with ⟨hcaller, rfl⟩
  cases c with
  | schedule co arg =>
    show Undisturbed (m.callSchedule co arg)
    by_cases hdead : (m.sched.coros co).dead = true
    · have hraise : Accounted (m.sched.hist.raised ++ [co]) m.sched.hist.accepted
          (m.sched.hist.resumed.map Resumed.entry) (m.unprocessed ++ m.sched.pending) :=
        h.mono (List.subset_append_left _ _)
      unfold callSchedule
      rw [Sched.schedule_dead hdead]
      split
      · rename_i hpc
        rw [unprocessed_between (by rw [hpc]; rfl)] at hraise
        exact hraise
      · exact hraise
    · rw [callSchedule_alive arg (by simpa using hdead)]
      have hpush := h.push [(co, arg)]
      rw [List.append_assoc] at hpush
      exact hpush
  | insertEvent t co args => exact h
  | exit => exact h

-- The step lemma.
theorem step_undisturbed {a : Act} (h : Undisturbed m) (hstep : m.step a = some m') :
    Undisturbed m' ↔ Harmless m a := by
  cases a with
  | enter rule tv =>
    rcases m with ⟨s, pc⟩
    obtain ⟨rfl : pc = _, rfl⟩ := step_enter hstep
    exact iff_of_true (undisturbed_loopHead h rule tv) trivial
  | test => exact undisturbed_test h hstep
  | next rule tv => exact undisturbed_next h hstep
  | call c => exact iff_of_true (undisturbed_call h hstep) trivial
  | yield co arg =>
    rcases m with ⟨s, pc⟩
    obtain ⟨i, rfl : pc = _, rfl⟩ := step_yield hstep
    exact iff_of_true h trivial
  | finish =>
    rcases m with ⟨s, pc⟩
    obtain ⟨i, co, rfl : pc = _, -, rfl⟩ := step_finish hstep
    rcases finish_eq s co with ⟨coros, hfinish, -⟩
    simp only [hfinish]
    exact iff_of_true h trivial
  | pollReturn rule tv =>
    rcases m with ⟨s, pc⟩
    obtain ⟨rfl : pc = _, rfl⟩ := step_pollReturn hstep
    exact iff_of_true (undisturbed_loopHead h rule tv) trivial
  | pollThrow =>
    rcases m with ⟨s, pc⟩
    obtain ⟨rfl : pc = _, rfl⟩ := step_pollThrow hstep
    exact iff_of_true h trivial

end Steps

/-- In a run, every accepted entry of a coroutine that no exception has named is resumed once, or is
    still to be, if and only if no exception finds an entry of another coroutine behind it in its
    round, and no round begins with one left in `_staging`. -/
theorem undisturbed_iff (acts : List Act) :
    (∀ pre m, pre <+: acts → Runs pre m → Undisturbed m) ↔
      ∀ pre a m m', pre ++ [a] <+: acts → Runs pre m → m.step a = some m' → Harmless m a := by
  apply Run.always_iff (I := Undisturbed) (fun _ h => h) ?_ ?_ ?_ acts
  · exact fun _ _ _ h hstep ha => (step_undisturbed h hstep).mpr ha
  · exact fun _ _ _ h hstep ha hnext => ha ((step_undisturbed h hstep).mp hnext)
  · exact fun _ _ => .refl _

-- Coroutine 2 schedules itself again, coroutine 1 ends, and its second entry throws.  The main
-- program catches that and enters event_loop again.
def interruptedRound : List Act :=
  let tv : Timeval := ⟨0, 0⟩
  [.call (.schedule 2 7), .call (.schedule 1 0), .call (.schedule 1 0), .call (.schedule 3 0),
    .enter .first tv, .test, .next .first tv, .call (.schedule 2 8), .yield 2 0,
    .next .first tv, .finish, .next .first tv]

def enteredAgain : List Act :=
  let tv : Timeval := ⟨0, 0⟩
  interruptedRound ++ [.enter .first tv, .test, .next .first tv, .yield 2 0, .next .first tv, .test,
    .next .first tv, .yield 2 0, .next .first tv]

/-- The entry of coroutine 2 from the interrupted round is resumed a second time, and that of
    coroutine 3, which is behind the one that throws, is not resumed. -/
theorem undisturbed_broken :
    ∃ m, Runs enteredAgain m ∧ m.pc = .outside ∧ m.sched.hist.raised = [1, 1] ∧
      m.sched.hist.accepted = [(2, 7), (1, 0), (1, 0), (3, 0), (2, 8)] ∧
      m.sched.hist.resumed.map Resumed.entry = [(2, 7), (1, 0), (2, 8), (2, 7)] ∧
      m.sched.pending = [] ∧ ¬Undisturbed m := by
  refine ⟨_, run_of_exec rfl, rfl, rfl, rfl, rfl, rfl, fun h => ?_⟩
  have hthree := (h 3 (by decide)).length_eq
  exact absurd hthree (by decide)

/-! ## What is left behind is lost -/

/-- The entry is one of `front`, or was pending in the state `m₀`, or has been accepted since. -/
def Since (m₀ m : Machine) (front : List PendingEntry) (e : PendingEntry) : Prop :=
  e ∈ front ∨ e ∈ m₀.sched.pending ∨
    e ∈ m.sched.hist.accepted.drop m₀.sched.hist.accepted.length

/-- `front`, and then an entry of a dead coroutine, are what `_pending` begins with, or `_staging`:
    in this case a round in progress has not come past them. -/
structure Behind (m₀ : Machine) (front : List PendingEntry) (z : PendingEntry) (m : Machine) :
    Prop where
  dead : (m.sched.coros z.1).dead = true
  accepted : m₀.sched.hist.accepted <+: m.sched.hist.accepted
  resumed : ∃ later, m.sched.hist.resumed = m₀.sched.hist.resumed ++ later ∧
    ∀ r ∈ later, Since m₀ m front r.entry
  place :
    (front ++ [z] <+: m.sched.pending ∧ ∀ e ∈ m.sched.staging, Since m₀ m front e) ∨
      front ++ [z] <+: m.sched.staging ∧ (∀ e ∈ m.sched.pending, Since m₀ m front e) ∧
        m.pc.within front.length

section Behind

variable {m₀ m m' : Machine} {front : List PendingEntry} {z : PendingEntry}

theorem Since.mono {e : PendingEntry} (h : Since m₀ m front e)
    (hgrow : m.sched.hist.accepted <+: m'.sched.hist.accepted) : Since m₀ m' front e := by
  rcases h with hfront | hpending | hlate
  · exact .inl hfront
  · exact .inr (.inl hpending)
  · rcases hgrow with ⟨more, hmore⟩
    refine .inr (.inr ?_)
    rw [← hmore, List.drop_append]
    exact List.mem_append_left _ hlate

-- The main program, the poller or a pass over the timers adds entries to `_pending`.
theorem Behind.push {s : Sched} {pc : Pc} (h : Behind m₀ front z ⟨s, pc⟩)
    (es : List PendingEntry) : Behind m₀ front z ⟨s.push es, pc⟩ := by
  have hmono : ∀ e, Since m₀ ⟨s, pc⟩ front e → Since m₀ ⟨s.push es, pc⟩ front e :=
    fun e he => he.mono (List.prefix_append _ _)
  have hnew : ∀ e ∈ es, Since m₀ ⟨s.push es, pc⟩ front e := by
    intro e he
    refine .inr (.inr ?_)
    show e ∈ (s.hist.accepted ++ es).drop m₀.sched.hist.accepted.length
    rw [List.drop_append_of_le_length h.accepted.length_le]
    exact List.mem_append_right _ he
  refine ⟨h.dead, h.accepted.trans (List.prefix_append _ _), ?_, ?_⟩
  · rcases h.resumed with ⟨later, hlater, hsince⟩
    exact ⟨later, hlater, fun r hr => hmono _ (hsince r hr)⟩
  · rcases h.place with ⟨hblock, hstaging⟩ | ⟨hblock, hpending, hpc⟩
    · exact .inl ⟨hblock.trans (List.prefix_append _ _), fun e he => hmono e (hstaging e he)⟩
    · refine .inr ⟨hblock, fun e he => ?_, hpc⟩
      rcases List.mem_append.mp he with he | he
      · exact hmono e (hpending e he)
      · exact hnew e he

theorem Behind.move {s : Sched} {pc pc' : Pc} (h : Behind m₀ front z ⟨s, pc⟩)
    (hpc' : pc'.inRound = false) : Behind m₀ front z ⟨s, pc'⟩ := by
  refine ⟨h.dead, h.accepted, h.resumed, ?_⟩
  rcases h.place with hplace | ⟨hblock, hpending, -⟩
  · exact .inl hplace
  · exact .inr ⟨hblock, hpending, Pc.within_between hpc' _⟩

theorem Behind.pass {s : Sched} {pc : Pc} (h : Behind m₀ front z ⟨s, pc⟩) (rule : TopRule)
    (tv : Timeval) : Behind m₀ front z (resolve (s.scheduleEvents rule tv) .runPending) := by
  unfold Sched.scheduleEvents
  rw [Sched.scheduleEventsLoop_swept]
  generalize sweep id rule tv _ _ _ = r
  have hpush := h.push (r.fired.map Event.entry)
  unfold Sched.swept resolve
  cases r.zombie with
  | none =>
    have hmoved : Behind m₀ front z ⟨s.push (r.fired.map Event.entry), .runPending⟩ :=
      hpush.move rfl
    exact ⟨hmoved.dead, hmoved.accepted, hmoved.resumed, hmoved.place⟩
  | some _ =>
    have hmoved : Behind m₀ front z ⟨s.push (r.fired.map Event.entry), .outside⟩ := hpush.move rfl
    exact ⟨hmoved.dead, hmoved.accepted, hmoved.resumed, hmoved.place⟩

theorem Behind.loopHead {s : Sched} {pc : Pc} (h : Behind m₀ front z ⟨s, pc⟩) (rule : TopRule)
    (tv : Timeval) : Behind m₀ front z (loopHead rule tv s) := by
  unfold Machine.loopHead
  split
  · exact h.move rfl
  · exact h.pass rule tv

theorem Behind.swapLists {s : Sched} {pc : Pc} (h : Behind m₀ front z ⟨s, pc⟩) :
    Behind m₀ front z ⟨s.swapLists, .staging 0⟩ := by
  refine ⟨h.dead, h.accepted, h.resumed, ?_⟩
  rcases h.place with ⟨hblock, hstaging⟩ | ⟨hblock, hpending, -⟩
  · exact .inr ⟨hblock, hstaging, Nat.zero_le _⟩
  · exact .inl ⟨hblock, hpending⟩

-- An entry that the round resumes is not behind the block.
theorem Behind.entry {s : Sched} {i : Nat} {e : PendingEntry}
    (h : Behind m₀ front z ⟨s, .staging i⟩) (hget : s.staging[i]? = some e)
    (halive : (s.coros e.1).dead = false) :
    Since m₀ ⟨s, .staging i⟩ front e ∧
      ((front ++ [z] <+: s.pending ∧ ∀ e ∈ s.staging, Since m₀ ⟨s, .staging i⟩ front e) ∨
        front ++ [z] <+: s.staging ∧ (∀ e ∈ s.pending, Since m₀ ⟨s, .staging i⟩ front e) ∧
          i < front.length) := by
  rcases h.place with ⟨hblock, hstaging⟩ | ⟨hblock, hpending, hi⟩
  · exact ⟨hstaging e (List.mem_of_getElem? hget), .inl ⟨hblock, hstaging⟩⟩
  · have hi' : i ≤ front.length := hi
    have hat : (front ++ [z])[i]? = some e := by
      rw [List.prefix_iff_eq_append.mp hblock |>.symm] at hget
      rw [List.getElem?_append_left] at hget
      · exact hget
      · rw [List.length_append, List.length_singleton]
        omega
    rcases Nat.lt_or_eq_of_le hi' with hlt | rfl
    · rw [List.getElem?_append_left hlt] at hat
      exact ⟨.inl (List.mem_of_getElem? hat), .inr ⟨hblock, hpending, hlt⟩⟩
    · -- the entry of the dead coroutine
      rw [List.getElem?_concat_length] at hat
      obtain rfl := Option.some.inj hat
      rw [show (s.coros z.1).dead = true from h.dead] at halive
      cases halive

theorem Behind.next {s : Sched} {i : Nat} {rule : TopRule} {tv : Timeval}
    (h : Behind m₀ front z ⟨s, .staging i⟩) :
    Behind m₀ front z (Machine.nextEntry rule tv ⟨s, .staging i⟩ i) := by
  cases hget : s.staging[i]? with
  | none =>
    rw [nextEntry_none hget]
    have hclear : Behind m₀ front z ⟨{ s with staging := [] }, .staging i⟩ := by
      refine ⟨h.dead, h.accepted, h.resumed, ?_⟩
      rcases h.place with ⟨hblock, -⟩ | ⟨hblock, -, hi⟩
      · exact .inl ⟨hblock, fun e he => absurd he List.not_mem_nil⟩
      · have hlen := hblock.length_le
        have hend := List.getElem?_eq_none_iff.mp hget
        have hi' : i ≤ front.length := hi
        rw [List.length_append, List.length_singleton] at hlen
        have hlen' : front.length + 1 ≤ s.staging.length := hlen
        omega
    exact hclear.pass rule tv
  | some e =>
    rcases e with ⟨co, arg⟩
    rw [nextEntry_some hget]
    by_cases hdead : (s.coros co).dead = true
    · rw [Sched.resume_dead hdead]
      have hout : Behind m₀ front z ⟨s, .outside⟩ := h.move rfl
      exact ⟨hout.dead, hout.accepted, hout.resumed, hout.place⟩
    · have halive : (s.coros co).dead = false := by simpa using hdead
      rw [Sched.resume_alive halive]
      rcases h.entry hget halive with ⟨hsince, hplace⟩
      refine ⟨(s.switchTo_dead co arg z.1).trans h.dead, h.accepted, ?_, ?_⟩
      · rcases h.resumed with ⟨later, hlater, hall⟩
        have hlater' : s.hist.resumed = m₀.sched.hist.resumed ++ later := hlater
        refine ⟨later ++ [⟨(co, arg), if (s.coros co).started then some arg else none⟩],
          (Sched.switchTo_resumed s co arg).trans ?_, ?_⟩
        · rw [hlater', List.append_assoc]
        · intro r hr
          rcases List.mem_append.mp hr with hr | hr
          · exact hall r hr
          · obtain rfl := List.mem_singleton.mp hr
            exact hsince
      · exact hplace

-- A coroutine gives control back, and may be dead now.
theorem Behind.back {s : Sched} {i : Nat} (h : Behind m₀ front z ⟨s, .inside i⟩)
    {coros : CoroId → Coro} (hdead : (coros z.1).dead = true) :
    Behind m₀ front z ⟨{ s with coros := coros }, .staging (i + 1)⟩ :=
  ⟨hdead, h.accepted, h.resumed, h.place⟩

theorem Behind.call {c : Call} (h : Behind m₀ front z m) (hstep : m.step (.call c) = some m') :
    Behind m₀ front z m' := by
  rcases m with ⟨s, pc⟩
  rcases step_call hstep with ⟨-, rfl⟩
  cases c with
  | schedule co arg =>
    show Behind m₀ front z (callSchedule ⟨s, pc⟩ co arg)
    by_cases hdead : (s.coros co).dead = true
    · unfold callSchedule
      rw [Sched.schedule_dead hdead]
      split
      · have hout : Behind m₀ front z ⟨s, .outside⟩ := h.move rfl
        exact ⟨hout.dead, hout.accepted, hout.resumed, hout.place⟩
      · exact ⟨h.dead, h.accepted, h.resumed, h.place⟩
    · rw [callSchedule_alive arg (by simpa using hdead)]
      exact h.push [(co, arg)]
  | insertEvent t co args => exact ⟨h.dead, h.accepted, h.resumed, h.place⟩
  | exit => exact ⟨h.dead, h.accepted, h.resumed, h.place⟩

theorem Behind.step {a : Act} (h : Behind m₀ front z m) (hstep : m.step a = some m') :
    Behind m₀ front z m' := by
  cases a with
  | call c => exact h.call hstep
  | enter rule tv =>
    rw [(step_enter hstep).2]
    exact h.loopHead rule tv
  | test =>
    rcases step_test hstep with ⟨-, ⟨rfl, -⟩ | ⟨rfl, -⟩ | ⟨rfl, -⟩⟩
    · exact h.swapLists
    · exact h.move rfl
    · exact h.move rfl
  | next rule tv =>
    rcases m with ⟨s, pc⟩
    obtain ⟨i, rfl : pc = _, rfl⟩ := step_next hstep
    exact h.next
  | yield co arg =>
    rcases m with ⟨s, pc⟩
    obtain ⟨i, rfl : pc = _, rfl⟩ := step_yield hstep
    exact h.back ((s.yield_dead co arg z.1).trans h.dead)
  | finish =>
    rcases m with ⟨s, pc⟩
    obtain ⟨i, co, rfl : pc = _, -, rfl⟩ := step_finish hstep
    have hdead : ((s.finish co).coros z.1).dead = true := by
      rw [Sched.finish_dead]
      split
      · rfl
      · exact h.dead
    rcases finish_eq s co with ⟨coros, hfinish, -⟩
    rw [hfinish] at hdead ⊢
    exact h.back hdead
  | pollReturn rule tv =>
    rw [(step_pollReturn hstep).2]
    exact h.loopHead rule tv
  | pollThrow =>
    rw [(step_pollThrow hstep).2]
    exact h.move rfl

end Behind

-- Wherever a round has been interrupted, the entries that stand behind the one of the dead
-- coroutine are not resumed: what is, stood before it, or was pending then, or has been accepted
-- since.
theorem left_behind {m₀ m : Machine} {acts : List Act} {front back : List PendingEntry}
    {z : PendingEntry} (hpc : m₀.pc.inRound = false)
    (hstaging : m₀.sched.staging = front ++ z :: back) (hdead : (m₀.sched.coros z.1).dead = true)
    (run : Run (ofFun step) m₀ acts m) :
    ∃ later, m.sched.hist.resumed = m₀.sched.hist.resumed ++ later ∧
      ∀ r ∈ later, Since m₀ m front r.entry := by
  have hblock : front ++ [z] <+: m₀.sched.staging := by
    rw [hstaging]
    exact ⟨back, List.append_assoc front [z] back⟩
  have hstart : Behind m₀ front z m₀ := {
    dead := hdead
    accepted := List.prefix_rfl
    resumed := ⟨[], (List.append_nil _).symm, fun _ hr => absurd hr List.not_mem_nil⟩
    place := .inr ⟨hblock, fun _ he => .inr (.inl he), Pc.within_between hpc _⟩ }
  exact (run.invariant (fun _ _ _ h hstep => h.step hstep) hstart).resumed

end Machine

end Coropp
