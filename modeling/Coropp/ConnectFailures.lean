import Coropp.Connect

/-!
# Attempts that fail while `connect` waits

What the poller hears of a failure has to get to the call that waits: as an error that its coroutine
is scheduled with, which `wait_for_write` throws before the poller is called again.  Only
`kqueue_poller` passes it on, and only if the registration is still that of the call and nothing is
lost on the way.
-/

namespace Coropp

open Transition

/-- The answer is one of `kevent`, what it says of `fd` is for `me`, and all its events are for live
    coroutines. -/
def AnyPoller.Forwards (p : AnyPoller) (s : Sched) (a : PollAnswer) (fd : Fd) (me : CoroId) : Prop :=
  match p, a with
  | kqueuePoller p k, .kevent (.events ns) =>
    k.apply p.changeList (fd, .write) = some (.coro me) ∧
      ∀ n ∈ ns, ∃ co, k.apply p.changeList (n.ident, n.filter) = some (.coro co) ∧
        (s.coros co).dead = false
  | _, _ => False

namespace ConnectProgram

/-- The call of `me` waits, though its attempt has failed and the poller has heard of it. -/
structure Unaware (w : ConnectProgram) (me : CoroId) (c : ConnectCall) : Prop where
  call : w.calls[me]? = some c
  waits : c.pc = .waiting
  failed : ∃ errno, c.attempt = .failed errno
  told : ∃ v, w.Told c v

/-- The coroutine `me` has been scheduled or resumed with an error, which its wait throws. -/
def Due (w : ConnectProgram) (me : CoroId) : Prop :=
  w.poller.isKqueue = true ∧ ∃ v, waitError v ≠ 0 ∧ (w.Queued (me, v) ∨ w.Entered (me, v))

/-- A call whose attempt has failed has thrown, or waits and is going to: once the poller has heard of
    the failure, before it is called again. -/
def Throws (w : ConnectProgram) : Prop :=
  ∀ me c errno, w.calls[me]? = some c → c.attempt = .failed errno →
    (∃ e, c.pc = .threw e) ∨
      c.pc = .waiting ∧ ((∃ v, w.Told c v) → w.Due me ∧ w.pc ≠ .polling)

/-- A poll that hears of a failed attempt passes it on to the call that waits for it; and while a
    call is still to hear of it, `run_pending` comes to no dead coroutine. -/
def Heeded (w : ConnectProgram) : ConnectAct → Prop
  | .program (.poll _ _ _ a) =>
    ∀ me c errno v, w.calls[me]? = some c → c.pc = .waiting → c.attempt = .failed errno →
      (c.fd, v) ∈ w.poller.writeReports a → w.poller.Forwards w.sched a c.fd me
  | .program (.machine (.next _ _)) =>
    (∃ me c, w.Unaware me c) → ∀ i co arg, w.pc = .staging i →
      w.sched.staging[i]? = some (co, arg) → (w.sched.coros co).dead = false
  | _ => True

end ConnectProgram

/-! ## What a poll passes on -/

-- What a poll has heard of a descriptor is what it schedules the coroutine with.
theorem PollProgram.poll_forwards {w w' : PollProgram} {rule : TopRule} {tv : Timeval}
    {timeoutUsec : Int} {a : PollAnswer} {fd : Fd} {me : CoroId} {v : Arg}
    (h : w.step (.poll rule tv timeoutUsec a) = some w')
    (hforwards : w.poller.Forwards w.sched a fd me) (hv : (fd, v) ∈ w.poller.writeReports a) :
    w.poller.isKqueue = true ∧ w'.Queued (me, v) ∧ w'.pc ≠ .polling := by
  rcases step_poll h with ⟨-, -, hpoll⟩
  cases hp : w.poller with
  | pollPoller q =>
    rw [hp] at hforwards
    exact hforwards.elim
  | selectPoller q =>
    rw [hp] at hforwards
    exact hforwards.elim
  | kqueuePoller q k =>
    rw [hp] at hforwards hv hpoll
    cases a with
    | poll r => exact hforwards.elim
    | select r turns => exact hforwards.elim
    | kevent b =>
      cases b with
      | failed applied => exact hforwards.elim
      | events ns =>
        rcases hforwards with ⟨hme, halive⟩
        rcases hpoll with ⟨⟨x, hx, -⟩, -⟩ | ⟨-, p, s, e, hpoll, -, hend⟩
        · exact absurd hx List.not_mem_nil
        · rcases Option.map_eq_some_iff.mp hpoll with ⟨r, hr, heq⟩
          rcases KqueuePoller.poll_schedules hr halive with ⟨es, hending, hscheduled⟩
          rw [hending] at heq
          obtain ⟨-, rfl, rfl⟩ := heq
          rcases List.mem_map.mp hv with ⟨n, hn, hnv⟩
          rcases List.mem_filter.mp hn with ⟨hmem, hfilter⟩
          obtain ⟨rfl, rfl⟩ := Prod.mk.inj hnv
          have hkey : n.filter = .write := of_decide_eq_true hfilter
          have hentry := hscheduled n hmem me (hkey ▸ hme)
          rcases hend with ⟨hmachine, -⟩
          rw [hmachine]
          refine ⟨rfl, Machine.queued_loopHead (List.mem_append_right _ hentry), fun hpc => ?_⟩
          rcases Machine.loopHead_pc rule tv (w.sched.push es) with hpc' | hpc' <;>
            cases hpc'.symm.trans hpc

namespace ConnectProgram

variable {w w' : ConnectProgram} {a : ConnectAct}

/-! ## Steps -/

-- The coroutine of a call that waits is not in control while the program does something else.
theorem not_entered {me : CoroId} {c : ConnectCall} {v : Arg} (hidle : w.active = none)
    (hcall : w.calls[me]? = some c) (hpc : c.pc = .waiting) : ¬w.Entered (me, v) := by
  rintro ⟨⟨i, hin⟩, hcur, -⟩
  unfold active at hidle
  rw [hin, show w.sched.current = some me from hcur] at hidle
  simp only [hcall, ConnectCall.underWay, hpc] at hidle
  simp at hidle

-- A call that moves on leaves control where it is, unless it begins to wait.
theorem Moves.control {me : CoroId} {c : ConnectCall} (hmoves : Moves w me a c)
    (h : w.step a = some w') :
    w'.toMachine = w.toMachine ∨
      ∃ i, w.pc = .inside i ∧ w.sched.current = some me ∧
        w'.toMachine = ⟨w.sched.yield me 0, .staging (i + 1)⟩ := by
  cases hmoves with
  | start fd =>
    simp only [step] at h
    split at h
    · split at h
      · cases h
      · obtain rfl := Option.some.inj h
        exact .inl rfl
    · cases h
  | @answered c hactive hpc ans =>
    simp only [step, hactive, if_pos hpc] at h
    split at h
    · rcases Option.map_eq_some_iff.mp h with ⟨p, hp, rfl⟩
      rcases PollProgram.step_waitFor hp with ⟨i, me', hin, hcur, rfl⟩
      obtain rfl := Option.some.inj (hcur.symm.trans (active_spec hactive).2.1)
      exact .inr ⟨i, hin, hcur, rfl⟩
    · obtain rfl := Option.some.inj h
      exact .inl rfl
  | @settled c hc hpc hprogress attempt =>
    simp only [step, hc] at h
    split at h
    · obtain rfl := Option.some.inj h
      exact .inl rfl
    · cases h
  | @woken c hactive hpc =>
    simp only [step, hactive, if_pos hpc] at h
    obtain rfl := Option.some.inj h
    exact .inl rfl

-- An error on its way to another coroutine stays on its way.
theorem Moves.keeps_due {me co : CoroId} {c : ConnectCall} (hmoves : Moves w me a c)
    (hstep : w.step a = some w') (hkind : w'.poller.isKqueue = w.poller.isKqueue) (hne : co ≠ me)
    (hdue : w.Due co) (hpc : w.pc ≠ .polling) : w'.Due co ∧ w'.pc ≠ .polling := by
  rcases hdue with ⟨hk, v, hv, hq⟩
  rcases hmoves.control hstep with hsame | ⟨i, hin, hcur, hyields⟩
  · unfold Due
    rw [hsame]
    exact ⟨⟨hkind.trans hk, v, hv, hq⟩, hpc⟩
  · unfold Due
    rw [hyields]
    refine ⟨⟨hkind.trans hk, v, hv, .inl ?_⟩, fun hpolling => nomatch hpolling⟩
    rcases hq with (hround | hpending) | ⟨-, hcur', -⟩
    · rw [Machine.unprocessed_inside hin] at hround
      exact .inl hround
    · exact .inr hpending
    · exact absurd (Option.some.inj (hcur'.symm.trans hcur)) hne

/-- Whoever is to hear of a failure is going to, before the poller is called again. -/
structure Alert (w : ConnectProgram) : Prop where
  kept : w.Kept
  fresh : ∀ (me : CoroId) (c : ConnectCall), w.calls[me]? = some c → c.pc = .connecting →
    c.attempt = .inProgress
  due : ∀ me c, w.Unaware me c → w.Due me ∧ w.pc ≠ .polling

theorem Alert.throws (h : w.Alert) : w.Throws := by
  intro me c errno hc hfailed
  cases hpc : c.pc with
  | connecting =>
    have hprogress := h.fresh me c hc hpc
    rw [hfailed] at hprogress
    cases hprogress
  | waiting => exact .inr ⟨rfl, fun htold => h.due me c ⟨hc, hpc, ⟨errno, hfailed⟩, htold⟩⟩
  | returned =>
    have hest := h.kept.reports me c hc hpc
    rw [hfailed] at hest
    cases hest
  | threw e => exact .inl ⟨e, rfl⟩

-- A step of the program that is no poll: an error that is queued stays so, or gets to its coroutine.
theorem due_program {p p' : PollProgram} {b : PollAct} (hstep : p.step b = some p')
    (hb : ∀ rule tv timeoutUsec ans, b ≠ .poll rule tv timeoutUsec ans) (hpc : p.pc ≠ .polling)
    (halive : ∀ rule tv i co arg, b = .machine (.next rule tv) → p.pc = .staging i →
      p.sched.staging[i]? = some (co, arg) → (p.sched.coros co).dead = false)
    {entry : PendingEntry} (hq : p.Queued entry) :
    (p'.Queued entry ∨ p'.Entered entry) ∧ p'.pc ≠ .polling := by
  cases b with
  | machine a =>
    rcases PollProgram.step_machine hstep with ⟨-, m, hm, rfl⟩
    have hkeeps : m.Queued entry ∨ m.Entered entry :=
      Machine.step_queued hm hpc hq fun rule tv i co arg ha => halive rule tv i co arg (ha ▸ rfl)
    refine ⟨hkeeps, fun hpolling => ?_⟩
    rcases hkeeps with hqueued | ⟨⟨i, hin⟩, -⟩
    · have hin := hqueued.pending (by rw [show m.pc = .polling from hpolling]; rfl)
      rw [(Machine.step_polling hm hpc hpolling).1] at hin
      cases hin
    · cases hin.symm.trans hpolling
  | waitFor dir fd =>
    rcases PollProgram.step_waitFor hstep with ⟨i, me, hin, -, rfl⟩
    refine ⟨.inl ?_, fun hpolling => nomatch hpolling⟩
    rcases hq with hround | hpending
    · rw [Machine.unprocessed_inside hin] at hround
      exact .inl hround
    · exact .inr hpending
  | setSignalHandler signum f =>
    rcases PollProgram.step_setSignalHandler hstep with ⟨q, k, -, rfl⟩
    exact ⟨.inl hq, hpc⟩
  | poll rule tv timeoutUsec ans => exact absurd rfl (hb rule tv timeoutUsec ans)

theorem Alert.due_program (h : w.Alert) {me : CoroId} {c : ConnectCall} {b : PollAct}
    (hstep : w.step (.program b) = some w') (hheeded : w.Heeded (.program b))
    (hunaware : w'.Unaware me c) : w'.Due me ∧ w'.pc ≠ .polling := by
  rcases step_program hstep with ⟨hidle, htruthful, hp, hcalls, hheard⟩
  have hkind := PollProgram.step_isKqueue hp
  have hcall : w.calls[me]? = some c := hcalls ▸ hunaware.call
  rcases hunaware.failed with ⟨errno, hfailed⟩
  rcases hunaware.told with ⟨v, hv⟩
  rcases (told_append (h.kept.since me c hcall hunaware.waits) hheard).mp hv with hold | hnew
  · have hbefore : w.Unaware me c := ⟨hcall, hunaware.waits, hunaware.failed, v, hold⟩
    rcases h.due me c hbefore with ⟨⟨hk, v', hv', hq | hentered⟩, hpc⟩
    · have hnext : (w'.Queued (me, v') ∨ w'.Entered (me, v')) ∧ w'.pc ≠ .polling := by
        apply ConnectProgram.due_program hp ?_ hpc ?_ hq
        · rintro rule tv timeoutUsec ans rfl
          exact hpc (PollProgram.step_poll hp).1
        · rintro rule tv i co arg rfl
          exact hheeded ⟨me, c, hbefore⟩ i co arg
      exact ⟨⟨hkind.trans hk, v', hv', hnext.1⟩, hnext.2⟩
    · exact absurd hentered (not_entered hidle hcall hunaware.waits)
  · -- the poll has just heard of the failure
    cases b with
    | poll rule tv timeoutUsec ans =>
      have hforwards := hheeded me c errno v hcall hunaware.waits hfailed hnew
      rcases PollProgram.poll_forwards hp hforwards hnew with ⟨hk, hq, hpc⟩
      have hagrees := htruthful _ hnew (me, c) (Maps.mem_toList.mpr hcall) hunaware.waits rfl
      rw [hfailed] at hagrees
      have herror := waitError_ne_zero (hagrees hk) (AnyPoller.writeReports_lt hnew)
      exact ⟨⟨hkind.trans hk, v, herror, .inl hq⟩, hpc⟩
    | machine b => cases hnew
    | waitFor dir fd => cases hnew
    | setSignalHandler signum f => cases hnew

-- A call that moves does not begin to be unaware of a failure.
theorem Kept.move_aware (h : w.Kept) {me : CoroId} {c : ConnectCall} (hmoves : Moves w me a c)
    (hheard : w'.heard = w.heard) (hfresh : ∀ (me : CoroId) (c : ConnectCall), w.calls[me]? = some c →
      c.pc = .connecting → c.attempt = .inProgress) : ¬w'.Unaware me c := by
  rintro ⟨-, hwaits, ⟨errno, hfailed⟩, v, hv⟩
  rw [told_congr hheard] at hv
  cases hmoves with
  | start fd => cases hwaits
  | @answered c hactive hpc ans =>
    rw [ConnectCall.answered_waits hwaits] at hfailed
    cases (hfresh me c (active_spec hactive).2.2 hpc).symm.trans hfailed
  | @settled c hc hpc hprogress attempt =>
    have hagrees := h.told me c hc hpc v hv
    rw [hprogress] at hagrees
    exact hagrees
  | woken hactive hpc => exact ConnectCall.woken_over _ _ hwaits

theorem Alert.step (h : w.Alert) (hstep : w.step a = some w') (hplain : w.Plain a)
    (hheeded : w.Heeded a) : w'.Alert := by
  have hkept := step_kept h.kept hstep hplain
  rcases step_calls hstep with ⟨hkind, ⟨b, rfl, hcalls, -⟩ | ⟨me, c, hmoves, hcalls, hheard⟩⟩
  · refine ⟨hkept, ?_, fun co c hunaware => h.due_program hstep hheeded hunaware⟩
    rw [hcalls]
    exact h.fresh
  · have hcall : ∀ (co : CoroId) (c' : ConnectCall), w'.calls[co]? = some c' →
        co = me ∧ c' = c ∨ co ≠ me ∧ w.calls[co]? = some c' := by
      intro co c' hc'
      rw [hcalls, Maps.getElem?_insert_eq] at hc'
      split at hc'
      · rename_i heq
        exact .inl ⟨heq, (Option.some.inj hc').symm⟩
      · rename_i hne
        exact .inr ⟨hne, hc'⟩
    refine ⟨hkept, fun co c' hc' hpc => ?_, fun co c' hunaware => ?_⟩
    · rcases hcall co c' hc' with ⟨rfl, rfl⟩ | ⟨-, hold⟩
      · cases hmoves with
        | start fd => rfl
        | answered hactive hpc' ans => exact absurd hpc (ConnectCall.answered_moves _ _)
        | settled hc hpc' hprogress attempt => cases hpc'.symm.trans hpc
        | woken hactive hpc' => exact absurd hpc (ConnectCall.woken_moves _ _)
      · exact h.fresh co c' hold hpc
    · rcases hcall co c' hunaware.call with ⟨rfl, rfl⟩ | ⟨hne, hold⟩
      · exact absurd hunaware (h.kept.move_aware hmoves hheard h.fresh)
      · have htold : ∃ v, w.Told c' v := hunaware.told.imp fun v => (told_congr hheard).mp
        rcases h.due co c' ⟨hold, hunaware.waits, hunaware.failed, htold⟩ with ⟨hdue, hpc⟩
        exact hmoves.keeps_due hstep hkind hne hdue hpc

theorem alert_init (args : PollerArgs) : Alert { poller := .create args } where
  kept := kept_init args
  fresh me c hc := by simp at hc
  due me c hunaware := by simpa using hunaware.call

theorem runs_isKqueue {args : PollerArgs} {acts : List ConnectAct} (run : Runs args acts w) :
    w.poller.isKqueue = args.isKqueue := by
  apply run.invariant (I := fun w => w.poller.isKqueue = args.isKqueue)
  · exact fun _ _ _ h hstep => (step_calls hstep).1.trans h
  · exact WriteProgram.create_isKqueue args

-- With the other pollers nothing that is heard of a failure makes a call throw.
theorem heeded_of_throws (hkept : w.Kept) (hstep : w.step a = some w')
    (hk : w.poller.isKqueue = false) (hk' : w'.poller.isKqueue = false) (hthrows : w.Throws)
    (hthrows' : w'.Throws) : w.Heeded a := by
  cases a with
  | program b =>
    cases b with
    | poll rule tv timeoutUsec ans =>
      intro me c errno v hc hpc hfailed hv
      rcases step_program hstep with ⟨-, -, -, hcalls, hheard⟩
      have htold : w'.Told c v := (told_append (hkept.since me c hc hpc) hheard).mpr (.inr hv)
      rcases hthrows' me c errno (hcalls ▸ hc) hfailed with ⟨e, he⟩ | ⟨-, hdue⟩
      · cases hpc.symm.trans he
      · cases hk'.symm.trans (hdue ⟨v, htold⟩).1.1
    | machine b =>
      cases b with
      | next rule tv =>
        rintro ⟨me, c, hc, hpc, ⟨errno, hfailed⟩, htold⟩
        rcases hthrows me c errno hc hfailed with ⟨e, he⟩ | ⟨-, hdue⟩
        · cases hpc.symm.trans he
        · cases hk.symm.trans (hdue htold).1.1
      | _ => trivial
    | waitFor dir fd => trivial
    | setSignalHandler signum f => trivial
  | _ => trivial

/-- In every run, with any poller, `connect` returns normally only on connections that have been
    established, if and only if no failure is reported to a call that waits with another poller than
    `kqueue_poller`, and nothing else wakes such a call up too early.  A call whose attempt fails throws,
    at once or before the poller that has heard of it is called again, if moreover every poll passes on
    what it hears to the call that waits for it, and no dead coroutine comes between; with the other
    two pollers, only if so. -/
theorem connect_reports_iff (args : PollerArgs) (acts : List ConnectAct) :
    ((∀ pre w, pre <+: acts → Runs args pre w → w.Reports) ↔
      ∀ pre a w w', pre ++ [a] <+: acts → Runs args pre w → w.step a = some w' → w.Plain a) ∧
    ((∀ pre a w w', pre ++ [a] <+: acts → Runs args pre w → w.step a = some w' →
        w.Plain a ∧ w.Heeded a) →
      ∀ pre w, pre <+: acts → Runs args pre w → w.Reports ∧ w.Throws) ∧
    (args.isKqueue = false →
      (∀ pre w, pre <+: acts → Runs args pre w → w.Reports ∧ w.Throws) →
        ∀ pre a w w', pre ++ [a] <+: acts → Runs args pre w → w.step a = some w' →
          w.Plain a ∧ w.Heeded a) := by
  refine ⟨reports_always_iff args acts, fun hsteps pre w hpre run => ?_, fun hk hall => ?_⟩
  · have halert : w.Alert := by
      apply Run.invariant_of_steps (G := fun w a => w.Plain a ∧ w.Heeded a) ?_ (alert_init args) ?_
        hpre run
      · exact fun _ _ _ h hstep hgood => h.step hstep hgood.1 hgood.2
      · exact fun pre a w w' hpre run _ => hsteps pre a w w' hpre run
    exact ⟨halert.kept.reports, halert.throws⟩
  · have hplain := (reports_always_iff args acts).mp fun pre w hpre run => (hall pre w hpre run).1
    intro pre a w w' hpre run hstep
    have hfirst : pre <+: acts := (List.prefix_append _ _).trans hpre
    have hkept : w.Kept := by
      apply Run.invariant_of_steps (G := Plain) ?_ (kept_init args) ?_ hfirst run
      · exact fun _ _ _ h hstep hplain => step_kept h hstep hplain
      · exact fun pre a w w' hpre run _ => hplain pre a w w' hpre run
    have hkind := (runs_isKqueue run).trans hk
    refine ⟨hplain pre a w w' hpre run hstep, ?_⟩
    exact heeded_of_throws hkept hstep hkind ((step_calls hstep).1.trans hkind) (hall pre w hfirst run).2
      (hall _ w' hpre (run.snoc hstep)).2

/-- Coroutine 1 connects descriptor 5.  The connection is refused while it waits, and the poller
    wakes it up. -/
def refused (a : PollAnswer) : List ConnectAct :=
  let tv : Timeval := ⟨0, 0⟩
  [.program (.machine (.call (.schedule 1 0))), .program (.machine (.enter .first tv)),
    .program (.machine .test), .program (.machine (.next .first tv)), .connect 5,
    .answer (.failed einprogress), .program (.machine (.next .first tv)), .program (.machine .test),
    .settle 1 (.failed 111), .program (.poll .first tv 0 a), .program (.machine .test),
    .program (.machine (.next .first tv)), .wakeUp]

/-- These bits in the slot of the descriptor. -/
def slotBits (revents : BitVec 16) : PollAnswer := .poll ⟨1, fun _ => revents⟩

/-- With `POLLOUT` the call returns normally, and with `POLLERR` alone it still waits when the poller
    is called again. -/
theorem refused_returns :
    (∃ w c, Runs (.pollPoller 8 fun _ => ⟨0, 0, 0⟩)
        (refused (slotBits (pollout ||| pollerr ||| pollhup))) w ∧
      w.calls[1]? = some c ∧ c.pc = .returned ∧ c.attempt = .failed 111 ∧ ¬w.Reports) ∧
    ∃ w c, Runs (.pollPoller 8 fun _ => ⟨0, 0, 0⟩) ((refused (slotBits pollerr)).take 11) w ∧
      w.calls[1]? = some c ∧ c.pc = .waiting ∧ c.attempt = .failed 111 ∧ w.pc = .polling ∧
      ¬w.Throws := by
  constructor
  · have run : ∃ w, Runs (.pollPoller 8 fun _ => ⟨0, 0, 0⟩)
        (refused (slotBits (pollout ||| pollerr ||| pollhup))) w ∧
        w.calls[1]? = some ⟨5, .returned, .failed 111, 0⟩ := ⟨_, run_of_exec rfl, rfl⟩
    rcases run with ⟨w, hrun, hcall⟩
    refine ⟨w, _, hrun, hcall, rfl, rfl, fun hreports => ?_⟩
    cases hreports 1 _ hcall rfl
  · have run : ∃ w, Runs (.pollPoller 8 fun _ => ⟨0, 0, 0⟩) ((refused (slotBits pollerr)).take 11) w ∧
        w.calls[1]? = some ⟨5, .waiting, .failed 111, 0⟩ ∧ w.pc = .polling ∧ w.heard = [(5, 0)] :=
      ⟨_, run_of_exec rfl, rfl, rfl, rfl⟩
    rcases run with ⟨w, hrun, hcall, hpc, hheard⟩
    refine ⟨w, _, hrun, hcall, rfl, rfl, hpc, fun hthrows => ?_⟩
    have htold : w.Told ⟨5, .waiting, .failed 111, 0⟩ 0 := by
      unfold Told
      rw [hheard]
      exact .head _
    rcases hthrows 1 _ 111 hcall rfl with ⟨e, he⟩ | ⟨-, hdue⟩
    · cases he
    · exact (hdue ⟨0, htold⟩).2 hpc

end ConnectProgram

end Coropp
