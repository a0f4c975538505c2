import Coropp.Tables

/-!
# One poller in place of another

A program over `poll_poller` runs the same over `kqueue_poller`: with answers of its own, the kernel
of the one lets it take every step that it takes with the other.
-/

namespace Coropp

open Transition

def Direction.filter : Direction → Filter
  | .read => .read
  | .write => .write

theorem Direction.filter_inj {d e : Direction} (h : d.filter = e.filter) : d = e := by
  cases d <;> cases e <;> first | rfl | cases h

namespace Knotes

/-- The queue has the registrations of `p`. -/
def Mirrors (k : Knotes) (p : WaitSets) : Prop :=
  ∀ v : Wait, k (v.fd, v.dir.filter) = some (.coro v.co) ↔ p.Registered v

theorem key_eq {v : Wait} {dir : Direction} {fd : Fd} :
    (v.fd, v.dir.filter) = (fd, dir.filter) ↔ v.dir = dir ∧ v.fd = fd := by
  constructor
  · intro h
    exact ⟨Direction.filter_inj (congrArg Prod.snd h), congrArg Prod.fst h⟩
  · rintro ⟨rfl, rfl⟩
    rfl

variable {k : Knotes} {p : WaitSets}

theorem Mirrors.change (h : k.Mirrors p) (dir : Direction) (fd : Fd) (c : CoroId) {ke : Kevent}
    (hkey : (ke.ident, ke.filter) = (fd, dir.filter)) (hudata : ke.udata = .coro c) :
    (k.change ke).Mirrors (p.setWaitFor dir fd c) := by
  intro v
  rw [WaitSets.registered_setWaitFor, Knotes.change, hkey, hudata]
  by_cases hv : v.dir = dir ∧ v.fd = fd
  · rw [if_pos hv, key_eq.mpr hv, Function.update_self]
    exact ⟨fun heq => (Udata.coro.inj (Option.some.inj heq)).symm, fun heq => by rw [heq]⟩
  · rw [if_neg hv, Function.update_of_ne (mt key_eq.mp hv)]
    exact h v

theorem Mirrors.erase (h : k.Mirrors p) (dir : Direction) (fd : Fd) :
    Mirrors (Function.update k (fd, dir.filter) none) (p.erase dir fd) := by
  intro v
  rw [WaitSets.registered_erase]
  by_cases hv : v.dir = dir ∧ v.fd = fd
  · rw [key_eq.mpr hv, Function.update_self]
    exact iff_of_false (fun heq => nomatch heq) fun hand => hand.2 hv
  · rw [Function.update_of_ne (mt key_eq.mp hv), h v]
    exact (and_iff_left hv).symm

theorem deliver_append {ns ms : List Notice} {es fs : List Kevent} {k' k'' : Knotes}
    (h : k.deliver ns = some (es, k')) (hnext : k'.deliver ms = some (fs, k'')) :
    k.deliver (ns ++ ms) = some (es ++ fs, k'') := by
  induction ns generalizing k es with
  | nil =>
    rcases Prod.mk.inj (Option.some.inj h) with ⟨rfl, rfl⟩
    exact hnext
  | cons n ns ih =>
    rcases Option.bind_eq_some_iff.mp h with ⟨u, hu, hrest⟩
    rcases Option.map_eq_some_iff.mp hrest with ⟨⟨es', k₁⟩, hdel, heq⟩
    rcases Prod.mk.inj heq with ⟨rfl, rfl⟩
    rw [List.cons_append, deliver, hu, Option.bind_some, ih hdel]
    rfl

end Knotes

namespace KqueuePoller

theorem dispatch_append {es fs : List Kevent} {s s' : Sched}
    (h : dispatch es s = .ended (.returned s')) : dispatch (es ++ fs) s = dispatch fs s' := by
  induction es generalizing s with
  | nil =>
    cases h
    rfl
  | cons kp es ih =>
    cases hu : kp.udata with
    | handler f =>
      rw [dispatch_handler hu] at h
      cases h
    | coro c =>
      cases hd : (s.coros c).dead with
      | true =>
        rw [dispatch_dead hu hd] at h
        cases h
      | false =>
        rw [dispatch_alive hu hd] at h
        rw [List.cons_append, dispatch_alive hu hd]
        exact ih h

end KqueuePoller

/-! ## The dispatch of the one by the events of the other -/

/-- A descriptor is ready, and nothing else is reported of it. -/
structure Notice.Plain (n : Notice) : Prop where
  filter : n.filter ≠ .signal
  flags : n.flags = 0
  fflags : n.fflags = 0

/-- The queue `k` has at most `n` plain events to answer with, whose dispatch by `kqueue_poller`
    takes the scheduler from `s` to `s'`, and which leave it with the registrations of `p'`. -/
def Matched (k : Knotes) (s : Sched) (n : Nat) (p' : WaitSets) (s' : Sched) : Prop :=
  ∃ ns events k', ns.length ≤ n ∧ (∀ x ∈ ns, x.Plain) ∧ k.deliver ns = some (events, k') ∧
    KqueuePoller.dispatch events s = .ended (.returned s') ∧ k'.Mirrors p'

namespace Matched

variable {k : Knotes} {p p' p'' : WaitSets} {s s' s'' : Sched} {m n : Nat}

theorem refl (h : k.Mirrors p) (s : Sched) : Matched k s n p s :=
  ⟨[], [], k, Nat.zero_le n, fun _ hx => absurd hx List.not_mem_nil, rfl, rfl, h⟩

theorem trans (h : Matched k s m p' s')
    (hnext : ∀ k' : Knotes, k'.Mirrors p' → Matched k' s' n p'' s'') :
    Matched k s (m + n) p'' s'' := by
  rcases h with ⟨ns, events, k', hlen, hplain, hdel, hdispatch, hmirrors⟩
  rcases hnext k' hmirrors with ⟨ms, events', k'', hlen', hplain', hdel', hdispatch', hmirrors'⟩
  refine ⟨ns ++ ms, events ++ events', k'', ?_, ?_, Knotes.deliver_append hdel hdel', ?_, hmirrors'⟩
  · rw [List.length_append]
    omega
  · exact List.forall_mem_append.mpr ⟨hplain, hplain'⟩
  · rw [KqueuePoller.dispatch_append hdispatch]
    exact hdispatch'

-- A waiter that `poll_poller` wakes is the coroutine of one event without flags.
theorem wake (h : k.Mirrors p) {dir : Direction} {fd : Fd}
    (hwake : p.wake s dir fd = .returned (p', s')) : Matched k s 1 p' s' := by
  cases hfd : (p.waitSet dir)[fd]? with
  | none =>
    simp only [WaitSets.wake, hfd] at hwake
    cases hwake
    exact refl h _
  | some co =>
    cases hd : (s.coros co).dead with
    | true =>
      have hthrow := WaitSets.wake_dead hfd hd
      rw [hwake] at hthrow
      cases hthrow
    | false =>
      rw [WaitSets.wake_alive hfd hd] at hwake
      cases hwake
      have hk : k (fd, dir.filter) = some (.coro co) := (h ⟨dir, fd, co⟩).mpr hfd
      refine ⟨[⟨fd, dir.filter, 0, 0, 0⟩], [⟨fd, dir.filter, 0, 0, 0, .coro co⟩], _, Nat.le_refl 1,
        ?_, ?_, ?_, h.erase dir fd⟩
      · exact List.forall_mem_singleton.mpr ⟨by cases dir <;> simp [Direction.filter], rfl, rfl⟩
      · rw [Knotes.deliver, hk]
        rfl
      · rw [KqueuePoller.dispatch_alive rfl hd]
        simp [KqueuePoller.dispatch, KqueuePoller.waiterArg]

theorem dispatchSlot (h : k.Mirrors p) {slot : Pollfd}
    (hslot : PollPoller.dispatchSlot slot p s = .returned (p', s')) : Matched k s 1 p' s' := by
  unfold PollPoller.dispatchSlot at hslot
  split at hslot
  · exact wake h hslot
  · split at hslot
    · exact wake h hslot
    · cases hslot
      exact refl h _

theorem dispatch {slots : List Pollfd} (h : k.Mirrors p) {result : Nat}
    (hdispatch : PollPoller.dispatch slots result (p, s) = .returned (p', s')) :
    Matched k s slots.length p' s' := by
  induction slots generalizing k p s result with
  | nil =>
    cases hdispatch
    exact refl h _
  | cons slot slots ih =>
    cases result with
    | zero =>
      cases hdispatch
      exact refl h _
    | succ result =>
      rw [PollPoller.dispatch] at hdispatch
      cases hslot : PollPoller.dispatchSlot slot p s with
      | deadCoro z st =>
        rw [hslot] at hdispatch
        cases hdispatch
      | returned st =>
        rw [hslot, Outcome.bind_returned] at hdispatch
        rw [List.length_cons, Nat.add_comm]
        exact (dispatchSlot h hslot).trans fun k' hk' => ih hk' hdispatch

-- What `::poll` answers does not matter: a dispatch that returns is matched.
theorem poll {pp pp' : PollPoller} {r : PollResponse} (h : k.Mirrors pp.toWaitSets)
    (hpoll : pp.poll s r = some (.returned (pp', s'))) :
    Matched k s pp.size pp'.toWaitSets s' := by
  unfold PollPoller.poll at hpoll
  split at hpoll
  · cases hpoll
  · rename_i hroom
    dsimp only at hpoll
    split at hpoll
    · cases hpoll
      exact refl h _
    · have hout := Option.some.inj hpoll
      cases hdispatch : PollPoller.dispatch
          (Words.window (pp.fillSlots.respond r).pollSet 0 (pp.fillSlots.respond r).count)
          r.result.toNat ((pp.fillSlots.respond r).toWaitSets, s) with
      | deadCoro z st =>
        rw [hdispatch] at hout
        cases hout
      | returned st =>
        rw [hdispatch, Outcome.map_returned] at hout
        cases hout
        have hmatched := dispatch (k := k) h hdispatch
        rcases hmatched with ⟨ns, events, k', hlen, hrest⟩
        have hwindow : (Words.window (pp.fillSlots.respond r).pollSet 0
            (pp.fillSlots.respond r).count).length = pp.count := by
          simp [Words.window]
          rfl
        exact ⟨ns, events, k', by omega, hrest⟩

end Matched

/-! ## Programs -/

/-- The waits that the installed poller knows of, whether or not it has passed them on. -/
def AnyPoller.Waiting (p : AnyPoller) (v : Wait) : Prop :=
  match p with
  | pollPoller p => p.Registered v
  | selectPoller p => p.Registered v
  | kqueuePoller p k => k.apply p.changeList (v.fd, v.dir.filter) = some (.coro v.co)

/-- The same act, but that to a poll the kernel answers with plain events. -/
inductive PollAct.Alike : PollAct → PollAct → Prop
  | same (a : PollAct) : Alike a a
  | poll (rule : TopRule) (tv : Timeval) (timeoutUsec : Int) (a : PollAnswer) {ns : List Notice}
    (plain : ∀ n ∈ ns, n.Plain) :
    Alike (.poll rule tv timeoutUsec a) (.poll rule tv timeoutUsec (.kevent (.events ns)))

namespace AnyPoller

theorem setWaitFor_kqueue {q : KqueuePoller} (hroom : q.changeIndex < q.outputMax) (k : Knotes)
    (dir : Direction) (fd : Fd) (c : CoroId) :
    ∃ ke : Kevent, (kqueuePoller q k).setWaitFor dir fd c =
        some (kqueuePoller { q with changeList := q.changeList ++ [ke] } k) ∧
      (ke.ident, ke.filter) = (fd, dir.filter) ∧ ke.udata = .coro c := by
  cases dir with
  | read =>
    refine ⟨⟨fd, .read, evAdd ||| evEnable ||| evOneshot, 0, 0, .coro c⟩, ?_, rfl, rfl⟩
    show (q.change _).map _ = _
    rw [KqueuePoller.change, if_pos hroom]
    rfl
  | write =>
    refine ⟨⟨fd, .write, evAdd ||| evEnable ||| evOneshot, 0, 0, .coro c⟩, ?_, rfl, rfl⟩
    show (q.change _).map _ = _
    rw [KqueuePoller.change, if_pos hroom]
    rfl

theorem setWaitFor_pollPoller (p : PollPoller) (dir : Direction) (fd : Fd) (c : CoroId) :
    (pollPoller p).setWaitFor dir fd c =
      some (pollPoller { p with toWaitSets := p.setWaitFor dir fd c }) := by
  cases dir <;> rfl

-- A poll of `poll_poller` returns, or it adds to what is raised.
theorem poll_pollPoller {p : PollPoller} {p' : AnyPoller} {s s' : Sched} {timeoutUsec : Int}
    {a : PollAnswer} {e : PollEnd} (h : (pollPoller p).poll s timeoutUsec a = some (p', s', e)) :
    ∃ r pp, p' = pollPoller pp ∧ pp.size = p.size ∧
      (e = .returned ∧ p.poll s r = some (.returned (pp, s')) ∧
          s'.hist.raised = s.hist.raised ∨
        e = .threw ∧ ∃ co, s'.hist.raised = s.hist.raised ++ [co]) := by
  cases a with
  | select r turns => cases h
  | kevent b => cases h
  | poll r =>
    rcases Option.map_eq_some_iff.mp h with ⟨out, hout, heq⟩
    cases heq
    have hsize : out.state.1.size = p.size := by
      unfold PollPoller.poll at hout
      split at hout
      · cases hout
      · dsimp only at hout
        split at hout
        · cases hout
          rfl
        · cases hout
          rw [Outcome.state_map]
          rfl
    refine ⟨r, out.state.1, rfl, hsize, ?_⟩
    rcases PollPoller.poll_moves hout with ⟨woken, left, -, hend⟩
    cases out with
    | returned st =>
      refine .inl ⟨rfl, hout, ?_⟩
      rcases hend with heq | ⟨v, -, -, heq⟩
      · have hsched : st.2 = s.push (woken.map Wait.entry) :=
          congrArg Prod.snd (Outcome.returned.inj heq)
        exact congrArg (fun s => s.hist.raised) hsched
      · cases heq
    | deadCoro z st =>
      refine .inr ⟨rfl, ?_⟩
      rcases hend with heq | ⟨v, -, -, heq⟩
      · cases heq
      · have hsched : st.2 = ((s.push (woken.map Wait.entry)).raise v.co).state :=
          congrArg Prod.snd (Outcome.deadCoro.inj heq).2
        exact ⟨v.co, congrArg (fun s => s.hist.raised) hsched⟩

theorem poll_kqueue {q : KqueuePoller} {k k' : Knotes} {s s' : Sched} {ns : List Notice}
    {events : List Kevent} (hlen : ns.length ≤ q.outputMax)
    (hdel : (k.apply q.changeList).deliver ns = some (events, k'))
    (hdispatch : KqueuePoller.dispatch events s = .ended (.returned s')) (timeoutUsec : Int) :
    (kqueuePoller q k).poll s timeoutUsec (.kevent (.events ns)) =
      some (kqueuePoller { q with changeList := [] } k', s', .returned) := by
  have hpoll : q.poll k s timeoutUsec (.events ns) =
      some ⟨{ q with changeList := [] }, k', events, .ended (.returned s')⟩ := by
    have hfits : ¬(q.call timeoutUsec).nevents < ns.length := Nat.not_lt.mpr hlen
    have hanswer : (k.apply (q.call timeoutUsec).changelist).deliver ns = some (events, k') := hdel
    simp only [KqueuePoller.poll, if_neg hfits, hanswer, Option.map_some, hdispatch]
  show (q.poll k s timeoutUsec (.events ns)).map _ = _
  rw [hpoll]
  rfl

end AnyPoller

namespace PollProgram

variable {size outputMax : Nat} {pollSet : Nat → Pollfd} {acts pre : List PollAct}
  {w w' wk : PollProgram} {a : PollAct}

/-- `wk` stands for `w` after the acts `pre`: it has registered with a `kqueue_poller`, or is about
    to, what the `poll_poller` of `w` has in its sets. -/
structure StandsFor (size outputMax : Nat) (pre : List PollAct) (w wk : PollProgram) : Prop where
  machine : wk.toMachine = w.toMachine
  defined : wk.defined = true
  pollers : ∃ p q k, w.poller = .pollPoller p ∧ wk.poller = .kqueuePoller q k ∧ p.size = size ∧
    q.outputMax = outputMax ∧ q.changeIndex = sinceLastPoll pre ∧
    (k.apply q.changeList).Mirrors p.toWaitSets

theorem StandsFor.waiting (h : StandsFor size outputMax pre w wk) (v : Wait) :
    wk.poller.Waiting v ↔ w.poller.Waiting v := by
  rcases h.pollers with ⟨p, q, k, hp, hq, -, -, -, hmirrors⟩
  rw [hp, hq]
  exact hmirrors v

theorem step_machine_of {m : Machine} {b : Act} (hdef : w.defined = true) (hpc : w.pc ≠ .polling)
    (hm : w.toMachine.step b = some m) : w.step (.machine b) = some (w.withMachine m) := by
  simp only [step, if_pos hdef, if_neg hpc, hm, Option.map_some]

theorem step_poll_of {q : KqueuePoller} {k : Knotes} (hdef : w.defined = true)
    (hpc : w.pc = .polling) (hq : w.poller = .kqueuePoller q k) {timeoutUsec : Int}
    {b : PollAnswer} {p' : AnyPoller} {s : Sched}
    (hpoll : w.poller.poll w.sched timeoutUsec b = some (p', s, .returned)) (rule : TopRule)
    (tv : Timeval) : ∃ w', w.step (.poll rule tv timeoutUsec b) = some w' ∧
      w'.toMachine = Machine.loopHead rule tv s ∧ w'.defined = true ∧ w'.poller = p' := by
  have hall : (w.poller.pollAccesses.all fun x => decide x.Inside) = true := by
    rw [hq]
    rfl
  simp only [step, if_pos hdef, if_pos hpc, pollStep, if_pos hall, hpoll, Option.map_some]
  exact ⟨_, rfl, rfl, hdef, rfl⟩

theorem register_pollPoller {p : PollPoller} (hp : w.poller = .pollPoller p) (dir : Direction)
    (fd : Fd) (c : CoroId) :
    (w.register (w.poller.setWaitFor dir fd c)).poller =
      .pollPoller { p with toWaitSets := p.setWaitFor dir fd c } := by
  show (w.poller.setWaitFor dir fd c).getD w.poller = _
  rw [hp, AnyPoller.setWaitFor_pollPoller]
  rfl

-- With `poll_poller`, a poll that stays inside the table comes back to `event_loop`, or raises.
theorem step_poll_pollPoller {p : PollPoller} (hp : w.poller = .pollPoller p) {rule : TopRule}
    {tv : Timeval} {timeoutUsec : Int} {a : PollAnswer}
    (hstep : w.step (.poll rule tv timeoutUsec a) = some w') :
    ∃ pp, w'.poller = .pollPoller pp ∧ (w'.defined = true → w.pc = .polling ∧ pp.size = p.size ∧
      ((∃ r s, p.poll w.sched r = some (.returned (pp, s)) ∧
          s.hist.raised = w.sched.hist.raised ∧ w'.toMachine = Machine.loopHead rule tv s) ∨
        ∃ co, w'.sched.hist.raised = w.sched.hist.raised ++ [co])) := by
  rcases step_poll hstep with ⟨hpc, -, ⟨-, hnot, hsame⟩ | ⟨-, p', s, e, hpoll, hp', hend⟩⟩
  · refine ⟨p, hsame.trans hp, fun hdef => ?_⟩
    rw [hnot] at hdef
    cases hdef
  · rw [hp] at hpoll
    rcases AnyPoller.poll_pollPoller hpoll with
      ⟨r, pp, rfl, hsize, ⟨rfl, hret, hraised⟩ | ⟨rfl, co, hco⟩⟩
    · exact ⟨pp, hp', fun _ => ⟨hpc, hsize, .inl ⟨r, s, hret, hraised, hend.1⟩⟩⟩
    · refine ⟨pp, hp', fun _ => ⟨hpc, hsize, .inr ⟨co, ?_⟩⟩⟩
      rw [hend.1]
      exact hco

theorem StandsFor.waitFor (h : StandsFor size outputMax pre w wk) {dir : Direction} {fd : Fd}
    (hstep : w.step (.waitFor dir fd) = some w') (hroom : sinceLastPoll pre < outputMax) :
    ∃ wk', wk.step (.waitFor dir fd) = some wk' ∧
      StandsFor size outputMax (pre ++ [.waitFor dir fd]) w' wk' := by
  have hpc : wk.pc = w.pc := congrArg Machine.pc h.machine
  have hsched : wk.sched = w.sched := congrArg Machine.sched h.machine
  rcases h.pollers with ⟨p, q, k, hp, hq, hps, hqm, hindex, hmirrors⟩
  rcases step_waitFor hstep with ⟨i, me, hi, hme, rfl⟩
  rcases AnyPoller.setWaitFor_kqueue (q := q) (by omega) k dir fd me with ⟨ke, hset, hkey, hudata⟩
  refine ⟨(wk.register (wk.poller.setWaitFor dir fd me)).withMachine
    ⟨wk.sched.yield me 0, .staging (i + 1)⟩, ?_, ?_, ?_, ?_⟩
  · simp only [PollProgram.step, if_pos h.defined, hpc.trans hi, hsched, hme]
  · show Machine.mk _ _ = Machine.mk _ _
    rw [hsched]
  · show (wk.poller.setWaitFor dir fd me).isSome = true
    rw [hq, hset]
    rfl
  · refine ⟨{ p with toWaitSets := p.setWaitFor dir fd me },
      { q with changeList := q.changeList ++ [ke] }, k, ?_, ?_, hps, hqm, ?_, ?_⟩
    · exact register_pollPoller hp dir fd me
    · show (wk.poller.setWaitFor dir fd me).getD wk.poller = _
      rw [hq, hset]
      rfl
    · rw [sinceLastPoll_snoc, ← hindex]
      exact List.length_append
    · show Knotes.Mirrors (Knotes.apply k (q.changeList ++ [ke])) (p.setWaitFor dir fd me)
      rw [Knotes.apply, List.foldl_append]
      exact hmirrors.change dir fd me hkey hudata

theorem StandsFor.poll (h : StandsFor size outputMax pre w wk) (hsize : size ≤ outputMax)
    {rule : TopRule} {tv : Timeval} {timeoutUsec : Int} {a : PollAnswer}
    (hstep : w.step (.poll rule tv timeoutUsec a) = some w') (hdef : w'.defined = true)
    (hraised : w'.sched.hist.raised = []) :
    ∃ ns wk', (∀ n ∈ ns, n.Plain) ∧
      wk.step (.poll rule tv timeoutUsec (.kevent (.events ns))) = some wk' ∧
      StandsFor size outputMax (pre ++ [.poll rule tv timeoutUsec a]) w' wk' := by
  have hpc : wk.pc = w.pc := congrArg Machine.pc h.machine
  have hsched : wk.sched = w.sched := congrArg Machine.sched h.machine
  rcases h.pollers with ⟨p, q, k, hp, hq, hps, hqm, -, hmirrors⟩
  rcases step_poll_pollPoller hp hstep with ⟨pp, hp', hend⟩
  rcases hend hdef with ⟨hpolling, hpps, ⟨r, s, hret, -, hmachine⟩ | ⟨co, hthrown⟩⟩
  · rcases Matched.poll hmirrors hret with
      ⟨ns, events, k', hlen, hplain, hdel, hdispatch, hmirrors'⟩
    have hanswer := AnyPoller.poll_kqueue (q := q) (by omega) hdel hdispatch timeoutUsec
    rw [← hq, ← hsched] at hanswer
    rcases step_poll_of h.defined (hpc.trans hpolling) hq hanswer rule tv with
      ⟨wk', hstep', hmachine', hdefined, hpoller⟩
    refine ⟨ns, wk', hplain, hstep', hmachine'.trans hmachine.symm, hdefined, ?_⟩
    refine ⟨pp, { q with changeList := [] }, k', hp', hpoller, hpps.trans hps, hqm, ?_, hmirrors'⟩
    rw [sinceLastPoll_snoc]
    rfl
  · rw [hraised] at hthrown
    simp at hthrown

theorem StandsFor.step (h : StandsFor size outputMax pre w wk) (hsize : size ≤ outputMax)
    (hstep : w.step a = some w') (hdef : w'.defined = true)
    (hraised : w'.sched.hist.raised = []) (hroom : sinceLastPoll (pre ++ [a]) ≤ outputMax) :
    ∃ b wk', PollAct.Alike a b ∧ wk.step b = some wk' ∧
      StandsFor size outputMax (pre ++ [a]) w' wk' := by
  rw [sinceLastPoll_snoc] at hroom
  cases a with
  | machine b =>
    rcases step_machine hstep with ⟨hne, m, hm, rfl⟩
    have hpc : wk.pc = w.pc := congrArg Machine.pc h.machine
    rw [← h.machine] at hm
    refine ⟨_, _, .same _, step_machine_of h.defined (hpc ▸ hne) hm, rfl, h.defined, ?_⟩
    rw [sinceLastPoll_snoc]
    exact h.pollers
  | waitFor dir fd =>
    rcases h.waitFor hstep hroom with ⟨wk', hstep', h'⟩
    exact ⟨_, wk', .same _, hstep', h'⟩
  | setSignalHandler signum f =>
    rcases step_setSignalHandler hstep with ⟨q, k, hq, -⟩
    rcases h.pollers with ⟨p, -, -, hp, -⟩
    rw [hp] at hq
    cases hq
  | poll rule tv timeoutUsec a =>
    rcases h.poll hsize hstep hdef hraised with ⟨ns, wk', hplain, hstep', h'⟩
    exact ⟨_, wk', .poll rule tv timeoutUsec a hplain, hstep', h'⟩

/-! ## Runs -/

theorem runs_pollPoller (run : Runs (.pollPoller size pollSet) acts w) :
    ∃ p, w.poller = .pollPoller p := by
  apply run.invariant (I := fun w => ∃ p, w.poller = .pollPoller p)
  · rintro w a w' ⟨p, hp⟩ hstep
    cases a with
    | machine b =>
      rcases step_machine hstep with ⟨-, m, -, rfl⟩
      exact ⟨p, hp⟩
    | waitFor dir fd =>
      rcases step_waitFor hstep with ⟨i, me, -, -, rfl⟩
      exact ⟨_, register_pollPoller hp dir fd me⟩
    | setSignalHandler signum f =>
      rcases step_setSignalHandler hstep with ⟨q, k, hq, -⟩
      rw [hp] at hq
      cases hq
    | poll rule tv timeoutUsec a =>
      rcases step_poll_pollPoller hp hstep with ⟨pp, hp', -⟩
      exact ⟨pp, hp'⟩
  · exact ⟨_, rfl⟩

-- What is raised stays raised.
theorem step_raised (hstep : w.step a = some w') (hdef : w'.defined = true) {p : PollPoller}
    (hp : w.poller = .pollPoller p) : w.sched.hist.raised <+: w'.sched.hist.raised := by
  cases a with
  | machine b =>
    rcases step_machine hstep with ⟨-, m, hm, rfl⟩
    exact Machine.step_raised hm
  | waitFor dir fd =>
    rcases step_waitFor hstep with ⟨i, me, -, -, rfl⟩
    exact List.prefix_rfl
  | setSignalHandler signum f =>
    rcases step_setSignalHandler hstep with ⟨q, k, -, rfl⟩
    exact List.prefix_rfl
  | poll rule tv timeoutUsec a =>
    rcases step_poll_pollPoller hp hstep with ⟨pp, -, hend⟩
    rcases hend hdef with ⟨-, -, ⟨r, s, -, hsame, hmachine⟩ | ⟨co, hthrown⟩⟩
    · rw [hmachine, ← hsame]
      exact Machine.loopHead_raised rule tv s
    · rw [hthrown]
      exact List.prefix_append _ _

/-- Every run over `poll_poller` that keeps to its slots and raises no `Dead_Coro` is one over
    `kqueue_poller`, where its lists are long enough for the waits between two polls: the kernel answers
    each poll with plain events, all else is done as before, and the scheduler and the waits come out
    the same, with the values of the resumes.  A wait of `kqueue_poller` takes a value other than 0 for
    an error, so that the coroutines do the same as long as nobody who waits is scheduled with one. -/
theorem runs_over_kqueue (run : Runs (.pollPoller size pollSet) acts w) (hdef : w.defined = true)
    (hraised : w.sched.hist.raised = []) (hsize : size ≤ outputMax)
    (hroom : ∀ pre, pre <+: acts → sinceLastPoll pre ≤ outputMax) :
    ∃ acts' wk, List.Forall₂ PollAct.Alike acts acts' ∧ Runs (.kqueuePoller outputMax) acts' wk ∧
      wk.defined = true ∧ wk.toMachine = w.toMachine ∧
      ∀ v, wk.poller.Waiting v ↔ w.poller.Waiting v := by
  have hstart : StandsFor size outputMax [] { poller := .create (.pollPoller size pollSet) }
      { poller := .create (.kqueuePoller outputMax) } := by
    refine ⟨rfl, rfl, _, _, _, rfl, rfl, rfl, rfl, rfl, fun v => iff_of_false nofun ?_⟩
    rw [← WaitSets.mem_registrations]
    exact List.not_mem_nil
  have hsim : ∃ acts' wk, List.Forall₂ PollAct.Alike acts acts' ∧
      Runs (.kqueuePoller outputMax) acts' wk ∧ StandsFor size outputMax acts w wk := by
    apply run.simulate_labels (R := StandsFor size outputMax)
      (Q := fun acts w => w.defined = true ∧ w.sched.hist.raised = [] ∧
        ∀ pre, pre <+: acts → sinceLastPoll pre ≤ outputMax) ?_ ?_ ⟨hdef, hraised, hroom⟩ hstart
    · rintro pre w a w' run hstep ⟨hdef, hraised, hroom⟩
      rcases runs_pollPoller run with ⟨p, hp⟩
      refine ⟨step_defined hstep, ?_, fun pre' hpre' => ?_⟩
      · exact List.prefix_nil.mp (hraised ▸ step_raised hstep hdef hp)
      · exact hroom pre' (hpre'.trans (List.prefix_append _ _))
    · rintro pre w wk a w' hstands hstep ⟨hdef, hraised, hroom⟩
      exact hstands.step hsize hstep hdef hraised (hroom _ List.prefix_rfl)
  rcases hsim with ⟨acts', wk, halike, hrun, hstands⟩
  exact ⟨acts', wk, halike, hrun, hstands.defined, hstands.machine, hstands.waiting⟩

theorem runs_over_kqueue_twoWaits :
    ∃ w, Runs (.pollPoller 2 fun _ => ⟨0, 0, 0⟩) (twoWaits 3 4 (.poll ⟨2, fun _ => pollin⟩)) w ∧
      w.sched.pending = [(2, 0), (1, 0)] ∧
      ∃ acts' wk, List.Forall₂ PollAct.Alike (twoWaits 3 4 (.poll ⟨2, fun _ => pollin⟩)) acts' ∧
        Runs (.kqueuePoller 2) acts' wk ∧ wk.defined = true ∧ wk.toMachine = w.toMachine ∧
        ∀ v, wk.poller.Waiting v ↔ w.poller.Waiting v := by
  have hrun : Runs (.pollPoller 2 fun _ => ⟨0, 0, 0⟩)
    (twoWaits 3 4 (.poll ⟨2, fun _ => pollin⟩)) _ := run_of_exec rfl
  have hroom : ∀ pre, pre <+: twoWaits 3 4 (.poll ⟨2, fun _ => pollin⟩) →
      sinceLastPoll pre ≤ 2 := by
    intro pre hpre
    have htake : ∀ n < 12, sinceLastPoll
        ((twoWaits 3 4 (.poll ⟨2, fun _ => pollin⟩)).take n) ≤ 2 := by decide
    rw [List.prefix_iff_eq_take.mp hpre]
    exact htake _ (Nat.lt_succ_of_le hpre.length_le)
  exact ⟨_, hrun, by decide, runs_over_kqueue hrun rfl rfl (Nat.le_refl 2) hroom⟩

end PollProgram

end Coropp
