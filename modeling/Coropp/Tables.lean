import Coropp.Programs

/-!
# Fixed tables

`_poll_set` and `_change_list` are as long as the constructor made them, and `FD_SET` has room for
`FD_SETSIZE` descriptors.  No poller keeps to these bounds: what it takes is that the program never
waits on more, or on higher, descriptors.
-/

namespace Coropp

open Transition

/-! ## What is touched -/

-- The slots are written from the last one down to the first.
theorem foldl_slots {α : Type} (l : List α) (n : Nat) (acc : List Nat) :
    (l.foldl (fun (st : Nat × List Nat) _ => (st.1 - 1, st.2 ++ [st.1 - 1]))
      (n + l.length, acc)).2 = acc ++ (List.range' n l.length).reverse := by
  induction l generalizing acc with
  | nil => exact (List.append_nil acc).symm
  | cons x l ih =>
    have hnext : n + (x :: l).length - 1 = n + l.length := by
      rw [List.length_cons]
      omega
    rw [List.foldl_cons]
    dsimp only
    rw [hnext, ih, List.length_cons, List.range'_concat, List.reverse_append, List.append_assoc,
      Nat.one_mul]
    rfl

theorem PollPoller.slotIndices_eq (p : PollPoller) :
    p.slotIndices = (List.range' 0 p.count).reverse := by
  have hlen : (p.readSet.keys ++ p.writeSet.keys).length = p.count := by
    rw [List.length_append, Std.TreeMap.length_keys, Std.TreeMap.length_keys, count]
  have hfold := foldl_slots (p.readSet.keys ++ p.writeSet.keys) 0 []
  rw [hlen, Nat.zero_add, List.nil_append] at hfold
  exact hfold

-- All slots written are inside exactly as long as there are no more registrations than slots.
theorem PollPoller.slots_inside_iff (p : PollPoller) :
    (∀ x ∈ (AnyPoller.pollPoller p).pollAccesses, x.Inside) ↔
      p.registrations.length ≤ p.size := by
  rw [p.length_registrations]
  unfold AnyPoller.pollAccesses
  simp only [slotIndices_eq, List.mem_map, List.mem_reverse, List.mem_range'_1, Access.Inside]
  constructor
  · intro hall
    by_contra hgt
    have hlast := hall ⟨(p.count - 1 : Nat), p.size⟩ ⟨p.count - 1, by omega, rfl⟩
    dsimp only at hlast
    omega
  · rintro hle x ⟨j, hj, rfl⟩
    dsimp only
    omega

namespace PollProgram

variable {w w' : PollProgram}

/-- The table entries that an act uses. -/
def touched (w : PollProgram) : PollAct → List Access
  | .waitFor _ _ | .setSignalHandler _ _ => w.poller.changeAccesses
  | .poll _ _ _ _ => w.poller.pollAccesses
  | .machine _ => []

theorem step_accesses {a : PollAct} (h : w.step a = some w') :
    w'.accesses = w.accesses ++ w.touched a := by
  cases a with
  | machine a =>
    rcases step_machine h with ⟨-, m, -, rfl⟩
    exact (List.append_nil _).symm
  | waitFor dir fd =>
    rcases step_waitFor h with ⟨i, me, -, -, rfl⟩
    rfl
  | setSignalHandler signum f =>
    rcases step_setSignalHandler h with ⟨p, k, -, rfl⟩
    rfl
  | poll rule tv timeoutUsec a => exact (step_poll h).2.1

/-- Every index used so far was inside its table. -/
def Inside (w : PollProgram) : Prop := ∀ x ∈ w.accesses, x.Inside

theorem step_inside {a : PollAct} (h : w.step a = some w') (hw : w.Inside) :
    w'.Inside ↔ ∀ x ∈ w.touched a, x.Inside := by
  unfold Inside
  rw [step_accesses h, List.forall_mem_append]
  exact and_iff_right hw

/-! ## What a run has registered -/

/-- The number of registrations since the last poll. -/
def sinceLastPoll (acts : List PollAct) : Nat :=
  acts.foldl (fun n a =>
    match a with
    | .waitFor _ _ | .setSignalHandler _ _ => n + 1
    | .poll _ _ _ _ => 0
    | .machine _ => n) 0

/-- A descriptor that a `fd_set` can hold. -/
def Selectable (fd : Fd) : Prop := 0 ≤ fd ∧ fd < SelectPoller.fdSetsize

-- An act that is no wait changes nothing of what has been waited for.
theorem waitFor_mem_snoc {pre : List PollAct} {a : PollAct} {dir : Direction} {fd : Fd}
    (ha : a ≠ .waitFor dir fd) : .waitFor dir fd ∈ pre ++ [a] ↔ .waitFor dir fd ∈ pre := by
  rw [List.mem_append, List.mem_singleton, or_iff_left ha.symm]

theorem sinceLastPoll_snoc (pre : List PollAct) (a : PollAct) :
    sinceLastPoll (pre ++ [a]) =
      match a with
      | .waitFor _ _ | .setSignalHandler _ _ => sinceLastPoll pre + 1
      | .poll _ _ _ _ => 0
      | .machine _ => sinceLastPoll pre := by
  rw [sinceLastPoll, List.foldl_append, List.foldl_cons, List.foldl_nil]
  rfl

end PollProgram

namespace AnyPoller

open PollProgram

/-- What the tables of a poller hold after the acts `pre`: the change list has an entry for each
    registration since the last poll, and the wait sets of `select_poller` name descriptors waited
    for, among them all that do not fit into a `fd_set`. -/
def Counted (p : AnyPoller) (pre : List PollAct) : Prop :=
  match p with
  | pollPoller _ => True
  | selectPoller p =>
    (∀ wt, p.Registered wt → .waitFor wt.dir wt.fd ∈ pre) ∧
      ∀ dir fd, .waitFor dir fd ∈ pre → ¬Selectable fd → ∃ co, p.Registered ⟨dir, fd, co⟩
  | kqueuePoller p _ => p.changeIndex = sinceLastPoll pre

theorem counted_kqueue {p : KqueuePoller} {k : Knotes} {pre : List PollAct} :
    (kqueuePoller p k).Counted pre ↔ p.changeIndex = sinceLastPoll pre := Iff.rfl

theorem select_inside_iff (p : SelectPoller) :
    (∀ x ∈ (selectPoller p).pollAccesses, x.Inside) ↔ ∀ wt, p.Registered wt → Selectable wt.fd := by
  have hkeys : ∀ (m : FdMap) (fd : Fd), fd ∈ m.keys ↔ ∃ co, m[fd]? = some co := by
    intro m fd
    rw [Std.TreeMap.mem_keys, Std.TreeMap.mem_iff_isSome_getElem?, Option.isSome_iff_exists]
  unfold pollAccesses SelectPoller.call
  constructor
  · rintro hall ⟨dir, fd, co⟩ hreg
    apply hall ⟨fd, SelectPoller.fdSetsize⟩
    refine List.mem_map.mpr ⟨fd, List.mem_append.mpr ?_, rfl⟩
    cases dir with
    | read => exact .inl ((hkeys _ _).mpr ⟨co, hreg⟩)
    | write => exact .inr ((hkeys _ _).mpr ⟨co, hreg⟩)
  · intro hall x hx
    rcases List.mem_map.mp hx with ⟨fd, hfd, rfl⟩
    rcases List.mem_append.mp hfd with hin | hin
    · rcases (hkeys _ _).mp hin with ⟨co, hco⟩
      exact hall ⟨.read, fd, co⟩ hco
    · rcases (hkeys _ _).mp hin with ⟨co, hco⟩
      exact hall ⟨.write, fd, co⟩ hco

variable {p p' : AnyPoller} {pre : List PollAct}

theorem Counted.machine (h : p.Counted pre) (a : Act) : p.Counted (pre ++ [.machine a]) := by
  cases p with
  | pollPoller p => trivial
  | selectPoller p =>
    refine ⟨fun wt hwt => List.mem_append_left _ (h.1 wt hwt), fun dir fd hmem hout => ?_⟩
    rw [waitFor_mem_snoc (by simp)] at hmem
    exact h.2 dir fd hmem hout
  | kqueuePoller p k =>
    rw [counted_kqueue, sinceLastPoll_snoc]
    exact h

-- A registration that finds room is one more.
theorem changeIndex_change {p p' : KqueuePoller} {ke : Kevent} (h : p.change ke = some p') :
    p'.changeIndex = p.changeIndex + 1 := by
  unfold KqueuePoller.change at h
  split at h
  · obtain rfl := Option.some.inj h
    exact List.length_append
  · cases h

theorem Counted.setWaitFor (h : p.Counted pre) {dir : Direction} {fd : Fd} {c : CoroId}
    (hset : p.setWaitFor dir fd c = some p') : p'.Counted (pre ++ [.waitFor dir fd]) := by
  rcases setWaitFor_cases hset with ⟨q, -, rfl⟩ | ⟨q, rfl, rfl⟩ | ⟨q, k, ke, q', rfl, hq, rfl⟩
  · trivial
  · refine ⟨fun wt hwt => ?_, fun d f hmem hout => ?_⟩
    · rw [WaitSets.registered_setWaitFor] at hwt
      split at hwt
      · rename_i hkey
        rw [hkey.1, hkey.2]
        exact List.mem_append_right _ (.head _)
      · exact List.mem_append_left _ (h.1 wt hwt)
    · by_cases hkey : d = dir ∧ f = fd
      · exact ⟨c, by rw [WaitSets.registered_setWaitFor, if_pos hkey]⟩
      · have hne : PollAct.waitFor dir fd ≠ .waitFor d f := by
          intro heq
          rcases PollAct.waitFor.inj heq with ⟨rfl, rfl⟩
          exact hkey ⟨rfl, rfl⟩
        rw [waitFor_mem_snoc hne] at hmem
        rcases h.2 d f hmem hout with ⟨co, hco⟩
        exact ⟨co, by rw [WaitSets.registered_setWaitFor, if_neg hkey]; exact hco⟩
  · rw [counted_kqueue, changeIndex_change hq, sinceLastPoll_snoc]
    exact congrArg (· + 1) h

theorem Counted.setSignalHandler {p : KqueuePoller} {k : Knotes} (h : (kqueuePoller p k).Counted pre)
    {signum : Int} {f : HandlerId} {q : KqueuePoller} (hset : p.setSignalHandler signum f = some q) :
    (kqueuePoller q k).Counted (pre ++ [.setSignalHandler signum f]) := by
  rw [counted_kqueue, changeIndex_change hset, sinceLastPoll_snoc]
  exact congrArg (· + 1) h

-- A poll leaves no changes behind.
theorem changeIndex_poll {p : KqueuePoller} {k : Knotes} {s : Sched} {timeoutUsec : Int}
    {a : KeventAnswer} {out : KqueuePoller.Polled} (h : p.poll k s timeoutUsec a = some out) :
    out.poller.changeIndex = 0 := by
  cases a with
  | events ns =>
    simp only [KqueuePoller.poll] at h
    split at h
    · cases h
    · rcases Option.map_eq_some_iff.mp h with ⟨q, -, rfl⟩
      rfl
  | failed applied =>
    obtain rfl := Option.some.inj h
    rfl

theorem Counted.poll (h : p.Counted pre) (hin : ∀ x ∈ p.pollAccesses, x.Inside) {s s' : Sched}
    {rule : TopRule} {tv : Timeval} {timeoutUsec : Int} {a : PollAnswer} {e : PollEnd}
    (hpoll : p.poll s timeoutUsec a = some (p', s', e)) :
    p'.Counted (pre ++ [.poll rule tv timeoutUsec a]) := by
  rcases poll_cases hpoll with ⟨q, r, out, -, -, -, rfl⟩ | ⟨q, r, turns, out, rfl, rfl, hsel, rfl⟩ |
    ⟨q, k, b, out, rfl, rfl, hkev, rfl⟩
  · trivial
  · refine ⟨fun wt hwt => List.mem_append_left _ (h.1 wt ?_), fun dir fd hmem hout => ?_⟩
    · exact SelectPoller.poll_registered hsel hwt
    · -- all that was waited for fits
      rw [waitFor_mem_snoc (by simp)] at hmem
      rcases h.2 dir fd hmem hout with ⟨co, hco⟩
      exact absurd ((select_inside_iff q).mp hin _ hco) hout
  · rw [counted_kqueue, sinceLastPoll_snoc, changeIndex_poll hkev]

end AnyPoller

/-! ## Runs -/

namespace PollProgram

variable {w w' : PollProgram}

theorem counted_step {pre : List PollAct} {a : PollAct} (h : w.poller.Counted pre)
    (hstep : w.step a = some w') (hdef : w'.defined = true) : w'.poller.Counted (pre ++ [a]) := by
  cases a with
  | machine a =>
    rcases step_machine hstep with ⟨-, m, -, rfl⟩
    exact h.machine a
  | waitFor dir fd =>
    rcases step_waitFor hstep with ⟨i, me, -, -, rfl⟩
    rcases Option.isSome_iff_exists.mp hdef with ⟨p', hset⟩
    change ((w.poller.setWaitFor dir fd me).getD w.poller).Counted _
    rw [hset]
    exact h.setWaitFor hset
  | setSignalHandler signum f =>
    rcases step_setSignalHandler hstep with ⟨p, k, hp, rfl⟩
    rcases Option.isSome_iff_exists.mp hdef with ⟨p', hset⟩
    change (Option.getD _ w.poller).Counted _
    rw [hset]
    rcases Option.map_eq_some_iff.mp hset with ⟨q, hq, rfl⟩
    rw [hp] at h
    exact h.setSignalHandler hq
  | poll rule tv timeoutUsec a =>
    rcases step_poll hstep with ⟨-, -, ⟨-, hnot, -⟩ | ⟨hin, p, s, e, hpoll, rfl, -⟩⟩
    · rw [hnot] at hdef
      cases hdef
    · exact h.poll hin hpoll

theorem runs_counted {args : PollerArgs} {pre : List PollAct} (run : Runs args pre w)
    (hdef : w.defined = true) : w.poller.Counted pre := by
  induction run with
  | nil =>
    cases args with
    | pollPoller size pollSet => trivial
    | selectPoller =>
      refine ⟨fun wt hwt => ?_, fun _ _ hmem => absurd hmem List.not_mem_nil⟩
      rw [← WaitSets.mem_registrations] at hwt
      cases hwt
    | kqueuePoller outputMax => rfl
  | snoc run hstep ih => exact counted_step (ih (step_defined hstep)) hstep hdef

/-- After the acts `pre`, the next act keeps to the tables: `poll_poller` polls for no more waits
    than it has slots, `select_poller` for none on a descriptor that does not fit, and no more than
    `_output_max` registrations are made with `kqueue_poller` between two polls. -/
def Fits (pre : List PollAct) (w : PollProgram) (a : PollAct) : Prop :=
  match w.poller, a with
  | .pollPoller p, .poll _ _ _ _ => p.registrations.length ≤ p.size
  | .selectPoller _, .poll _ _ _ _ => ∀ dir fd, .waitFor dir fd ∈ pre → Selectable fd
  | .kqueuePoller p _, .waitFor _ _ => sinceLastPoll pre < p.outputMax
  | .kqueuePoller p _, .setSignalHandler _ _ => sinceLastPoll pre < p.outputMax
  | _, _ => True

theorem fits_iff {pre : List PollAct} (h : w.poller.Counted pre) (a : PollAct) :
    (∀ x ∈ w.touched a, x.Inside) ↔ Fits pre w a := by
  unfold touched Fits
  cases hp : w.poller with
  | pollPoller p =>
    cases a with
    | poll rule tv timeoutUsec a => exact p.slots_inside_iff
    | _ => simp [AnyPoller.changeAccesses]
  | selectPoller p =>
    rw [hp] at h
    cases a with
    | poll rule tv timeoutUsec a =>
      refine (AnyPoller.select_inside_iff p).trans ⟨fun hall dir fd hmem => ?_, fun hall wt hwt => ?_⟩
      · by_contra hout
        rcases h.2 dir fd hmem hout with ⟨co, hco⟩
        exact hout (hall _ hco)
      · exact hall _ _ (h.1 wt hwt)
    | _ => simp [AnyPoller.changeAccesses]
  | kqueuePoller p k =>
    rw [hp, AnyPoller.counted_kqueue] at h
    cases a with
    | machine a => simp
    | poll rule tv timeoutUsec a => simp [AnyPoller.pollAccesses]
    | _ => simp [AnyPoller.changeAccesses, Access.Inside, h]

/-- With any poller, every index used in a run is inside its table if and only if each act of the
    run keeps to the tables. -/
theorem inside_iff (args : PollerArgs) (acts : List PollAct) :
    (∀ pre w, pre <+: acts → Runs args pre w → w.Inside) ↔
      ∀ pre a w w', pre ++ [a] <+: acts → Runs args pre w → w.step a = some w' → Fits pre w a := by
  have hiff : (∀ pre w, pre <+: acts → Runs args pre w → w.Inside) ↔
      ∀ pre a w w', pre ++ [a] <+: acts → Runs args pre w → w.step a = some w' →
        ∀ x ∈ w.touched a, x.Inside := by
    apply Run.always_iff (I := Inside) (fun _ h => h) ?_ ?_ ?_ acts
    · exact fun _ _ _ h hstep hin => (step_inside hstep h).mpr hin
    · exact fun _ _ _ h hstep hout hnext => hout ((step_inside hstep h).mp hnext)
    · exact fun _ hx => absurd hx List.not_mem_nil
  rw [hiff]
  constructor
  · intro hall pre a w w' hpre run hstep
    exact (fits_iff (runs_counted run (step_defined hstep)) a).mp (hall pre a w w' hpre run hstep)
  · intro hall pre a w w' hpre run hstep
    exact (fits_iff (runs_counted run (step_defined hstep)) a).mpr (hall pre a w w' hpre run hstep)

/-- Coroutines 1 and 2 run, and wait for `fd₁` and `fd₂` before the poller is called. -/
def twoWaits (fd₁ fd₂ : Fd) (a : PollAnswer) : List PollAct :=
  let tv : Timeval := ⟨0, 0⟩
  [.machine (.call (.schedule 1 0)), .machine (.call (.schedule 2 0)), .machine (.enter .first tv),
    .machine .test, .machine (.next .first tv), .waitFor .read fd₁, .machine (.next .first tv),
    .waitFor .read fd₂, .machine (.next .first tv), .machine .test, .poll .first tv 0 a]

theorem tables_overrun :
    (∃ w, Runs (.pollPoller 1 fun _ => ⟨0, 0, 0⟩) (twoWaits 3 4 (.poll ⟨0, fun _ => 0⟩)) w ∧
      ⟨1, 1⟩ ∈ w.accesses ∧ ¬w.Inside) ∧
    (∃ w, Runs .selectPoller
        (twoWaits 3 1024 (.select ⟨0, fun _ => false, fun _ => false⟩ 1)) w ∧
      ⟨1024, 1024⟩ ∈ w.accesses ∧ ¬w.Inside) ∧
    ∃ w, Runs (.kqueuePoller 1) ((twoWaits 3 4 (.kevent (.events []))).take 8) w ∧
      ⟨1, 1⟩ ∈ w.accesses ∧ ¬w.Inside := by
  have hout : ∀ {w : PollProgram} {x : Access}, x ∈ w.accesses → ¬x.Inside → ¬w.Inside :=
    fun hx hnot hin => hnot (hin _ hx)
  refine ⟨⟨_, run_of_exec rfl, by decide, hout (x := ⟨1, 1⟩) (by decide) (by decide)⟩,
    ⟨_, run_of_exec rfl, by decide, hout (x := ⟨1024, 1024⟩) (by decide) (by decide)⟩,
    ⟨_, run_of_exec rfl, by decide, hout (x := ⟨1, 1⟩) (by decide) (by decide)⟩⟩

end PollProgram

end Coropp
