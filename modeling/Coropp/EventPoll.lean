import Coropp.WaitSets
import Coropp.Lib.Transition
import Coropp.Lib.Words

/-!
# `class poll_poller`

The filling of the slot array for `::poll` and the dispatch of its answer.
-/

namespace Coropp

open Words

def pollin : BitVec 16 := 1

def pollout : BitVec 16 := 4

def Direction.bit : Direction → BitVec 16
  | .read => pollin
  | .write => pollout

/-- `struct pollfd`. -/
structure Pollfd where
  fd : Fd
  events : BitVec 16
  revents : BitVec 16
deriving DecidableEq, Repr

/-- The arguments of one call of `::poll`. -/
structure PollCall where
  fds : List Pollfd
  timeout : Int
deriving DecidableEq, Repr

/-- What the kernel answers: the result of the call, and the `revents` it stores in each slot. -/
structure PollResponse where
  result : Int
  revents : Nat → BitVec 16

/-- `size` is the constructor's argument: the length of the array `_poll_set`. -/
structure PollPoller extends WaitSets where
  pollSet : Nat → Pollfd
  size : Nat

namespace PollPoller

def setWaitForRead (p : PollPoller) (fd : Fd) (c : CoroId) : PollPoller :=
  { p with toWaitSets := p.setWaitFor .read fd c }

def setWaitForWrite (p : PollPoller) (fd : Fd) (c : CoroId) : PollPoller :=
  { p with toWaitSets := p.setWaitFor .write fd c }

-- int count = _read_set.size() + _write_set.size()
def count (p : PollPoller) : Nat := p.readSet.size + p.writeSet.size

/-- A turn of a filling loop: `j--`, then the descriptor of slot `j` and one more bit of its
    `events`. -/
def fillSlot (bit : BitVec 16) (st : Nat × (Nat → Pollfd)) (fd : Fd) : Nat × (Nat → Pollfd) :=
  let j := st.1 - 1
  (j, Function.update st.2 j { st.2 j with fd := fd, events := (st.2 j).events ||| bit })

def fillSlots (p : PollPoller) : PollPoller :=
  let st := p.readSet.keys.foldl (fillSlot pollin) (p.count, p.pollSet)
  { p with pollSet := (p.writeSet.keys.foldl (fillSlot pollout) st).2 }

/-- The call of `::poll` that `poll (timeout_usec)` makes. -/
def call (p : PollPoller) (timeoutUsec : Int) : PollCall where
  fds := window p.fillSlots.pollSet 0 p.count
  timeout := toInt32 (timeoutUsec.tdiv 1000)

def respond (p : PollPoller) (r : PollResponse) : PollPoller :=
  { p with
    pollSet := fun j =>
      if j < p.count then { p.pollSet j with revents := r.revents j } else p.pollSet j }

def dispatchSlot (slot : Pollfd) (w : WaitSets) (s : Sched) : Outcome (WaitSets × Sched) :=
  if slot.revents &&& pollin ≠ 0 then w.wake s .read slot.fd
  else if slot.revents &&& pollout ≠ 0 then w.wake s .write slot.fd
  else .returned (w, s)

/-- `for (j = 0; ((j < count) && poll_result--); j++)`, over the slots from `j` on. -/
def dispatch : List Pollfd → Nat → WaitSets × Sched → Outcome (WaitSets × Sched)
  | [], _, st => .returned st
  | _ :: _, 0, st => .returned st
  | slot :: slots, pollResult + 1, st =>
    (dispatchSlot slot st.1 st.2).bind (dispatch slots pollResult)

/-- `poll`, when the kernel answers `r`.  With more waits than slots it writes outside the
    array. -/
def poll (p : PollPoller) (s : Sched) (r : PollResponse) : Option (Outcome (PollPoller × Sched)) :=
  if p.size < p.count then none
  else
    let p := p.fillSlots
    -- "poll() failed"
    if r.result < 0 then some (.returned (p, s))
    else
      let p := p.respond r
      let out := dispatch (window p.pollSet 0 p.count) r.result.toNat (p.toWaitSets, s)
      some (out.map fun st => ({ p with toWaitSets := st.1 }, st.2))

variable {p : PollPoller} {w : WaitSets} {s : Sched} {dir : Direction}

/-- The registrations in the order of their slots: the loops fill the array from its end. -/
def waits (p : PollPoller) : List Wait := p.registrations.reverse

theorem length_waits (p : PollPoller) : p.waits.length = p.count := by
  simp [waits, WaitSets.registrations, count, Nat.add_comm]

theorem length_registrations (p : PollPoller) : p.registrations.length = p.count := by
  rw [← p.length_waits, waits, List.length_reverse]

theorem mem_waits {w : Wait} : w ∈ p.waits ↔ p.Registered w := by
  rw [waits, List.mem_reverse, WaitSets.mem_registrations]

theorem waits_keys_ne (p : PollPoller) :
    p.waits.Pairwise fun a b => ¬(a.dir = b.dir ∧ a.fd = b.fd) := by
  rw [waits, List.pairwise_reverse]
  exact p.registrations_keys_ne.imp fun hne h => hne ⟨h.1.symm, h.2.symm⟩

/-! ## Filling the slots -/

-- What the filling loops do to the slot of a wait.
def fillFor (w : Wait) (slot : Pollfd) : Pollfd :=
  { slot with fd := w.fd, events := slot.events ||| w.dir.bit }

theorem foldl_fillSlot (ws : List Wait) (j : Nat) (slots : Nat → Pollfd) (h : ws.length ≤ j)
    (i : Nat) :
    (ws.foldl (fun st w => fillSlot w.dir.bit st w.fd) (j, slots)).2 i =
      if j - ws.length ≤ i then
        match ws.reverse[i - (j - ws.length)]? with
        | some w => fillFor w (slots i)
        | none => slots i
      else slots i := by
  induction ws generalizing j slots with
  | nil => simp
  | cons w ws ih =>
    rw [List.length_cons] at h
    rw [List.foldl_cons, fillSlot, ih _ _ (by omega)]
    have hbase : j - 1 - ws.length = j - (ws.length + 1) := by omega
    rw [List.length_cons, hbase, List.reverse_cons]
    by_cases hle : j - (ws.length + 1) ≤ i
    · rw [if_pos hle, if_pos hle]
      by_cases hlast : i = j - 1
      · subst hlast
        rw [List.getElem?_eq_none (by rw [List.length_reverse]; omega),
          List.getElem?_append_right (by rw [List.length_reverse]; omega), List.length_reverse,
          show j - 1 - (j - (ws.length + 1)) - ws.length = 0 by omega]
        simp only [Function.update_self, List.getElem?_cons_zero]
        rfl
      · rw [Function.update_of_ne hlast]
        by_cases hin : i - (j - (ws.length + 1)) < ws.length
        · rw [List.getElem?_append_left (by rw [List.length_reverse]; exact hin)]
        · rw [List.getElem?_eq_none (by rw [List.length_reverse]; omega),
            List.getElem?_eq_none (by simp; omega)]
    · rw [if_neg hle, if_neg hle]
      exact Function.update_of_ne (by omega) ..

-- After the loops, slot `i` is that of the `i`-th registration, and its `events` have kept what
-- they were before.
theorem fillSlots_get (p : PollPoller) (i : Nat) :
    p.fillSlots.pollSet i =
      match p.waits[i]? with
      | some w => fillFor w (p.pollSet i)
      | none => p.pollSet i := by
  have hlen := p.length_waits
  rw [waits, List.length_reverse] at hlen
  have hfold := foldl_fillSlot p.registrations p.count p.pollSet (by omega) i
  rw [hlen, Nat.sub_self, if_pos (Nat.zero_le i), Nat.sub_zero] at hfold
  rw [waits, ← hfold]
  simp only [fillSlots, WaitSets.registrations, ← Std.TreeMap.map_fst_toList_eq_keys,
    List.foldl_append, List.foldl_map]
  rfl

theorem fillSlots_count : p.fillSlots.count = p.count := rfl

-- The slots as the dispatch loop finds them.
theorem window_respond (p : PollPoller) (r : PollResponse) :
    window (p.fillSlots.respond r).pollSet 0 (p.fillSlots.respond r).count =
      p.waits.zipIdx.map fun q => { fillFor q.1 (p.pollSet q.2) with revents := r.revents q.2 } := by
  apply List.ext_getElem?
  intro i
  rw [show (p.fillSlots.respond r).count = p.count from rfl, window, List.getElem?_map,
    List.getElem?_map, List.getElem?_zipIdx, ← p.length_waits]
  by_cases hi : i < p.waits.length
  · rw [List.getElem?_range' hi, List.getElem?_eq_getElem hi]
    simp only [Option.map_some, Nat.one_mul, Nat.zero_add, respond,
      fillSlots_count, ← p.length_waits, if_pos hi, fillSlots_get, List.getElem?_eq_getElem hi]
  · rw [List.getElem?_eq_none (by simpa using hi), List.getElem?_eq_none (by simpa using hi)]
    rfl

/-! ## Dispatching -/

theorem dispatchSlot_bit {slot : Pollfd} (h : slot.revents = dir.bit) :
    dispatchSlot slot w s = w.wake s dir slot.fd := by
  rw [dispatchSlot, h]
  cases dir
  · exact if_pos (by decide)
  · rw [if_neg (by decide), if_pos (by decide)]

theorem dispatchSlot_zero {slot : Pollfd} (h : slot.revents = 0) :
    dispatchSlot slot w s = .returned (w, s) := by
  rw [dispatchSlot, h, if_neg (by decide), if_neg (by decide)]

theorem dispatchSlot_moves (slot : Pollfd) (w : WaitSets) (s : Sched) :
    ∃ woken w', WaitSets.Moves w s (dispatchSlot slot w s) woken w' := by
  unfold dispatchSlot
  split
  · exact w.wake_moves s .read slot.fd
  · split
    · exact w.wake_moves s .write slot.fd
    · exact ⟨[], w, .refl w s⟩

theorem dispatch_moves (slots : List Pollfd) (n : Nat) (w : WaitSets) (s : Sched) :
    ∃ woken w', WaitSets.Moves w s (dispatch slots n (w, s)) woken w' := by
  induction slots generalizing n w s with
  | nil => exact ⟨[], w, .refl w s⟩
  | cons slot slots ih =>
    cases n with
    | zero => exact ⟨[], w, .refl w s⟩
    | succ n =>
      rcases dispatchSlot_moves slot w s with ⟨woken, w₁, hslot⟩
      exact hslot.bind fun s₁ => ih n w₁ s₁

-- Whatever the kernel answers, `poll` only moves registrations into `_pending`.
theorem poll_moves {r : PollResponse} {out : Outcome (PollPoller × Sched)}
    (h : p.poll s r = some out) :
    ∃ woken w', WaitSets.Moves p.toWaitSets s (out.map fun st => (st.1.toWaitSets, st.2)) woken w' := by
  unfold poll at h
  split at h
  · cases h
  · dsimp only at h
    split at h
    · obtain rfl := Option.some.inj h
      exact ⟨[], p.toWaitSets, .refl _ _⟩
    · obtain rfl := Option.some.inj h
      rw [Outcome.map_map]
      change ∃ woken w', WaitSets.Moves _ _ ((dispatch _ _ (p.toWaitSets, s)).map fun st => st) _ _
      rw [Outcome.map_id]
      exact dispatch_moves _ _ p.toWaitSets s

-- A poll registers nobody.
theorem poll_registered {r : PollResponse} {out : Outcome (PollPoller × Sched)}
    (h : p.poll s r = some out) {v : Wait} (hv : out.state.1.Registered v) : p.Registered v := by
  rcases poll_moves h with ⟨woken, w', hmoves⟩
  have hleft := hmoves.left
  rw [Outcome.state_map] at hleft
  rw [← WaitSets.mem_registrations] at hv ⊢
  apply hmoves.1.mem_iff.mpr
  rw [← hleft]
  exact List.mem_append_right _ hv

/-- The registrations whose slots have non-zero `revents`. -/
def ready (p : PollPoller) (r : PollResponse) : List Wait :=
  (p.waits.zipIdx.filter fun q => r.revents q.2 ≠ 0).map Prod.fst

/-- The answer of a successful `::poll`: its result counts the slots with non-zero `revents`, and
    each slot has at most the bit that its wait asked for. -/
structure Answers (p : PollPoller) (r : PollResponse) : Prop where
  result : r.result = (p.ready r).length
  subset : ∀ j w, p.waits[j]? = some w → r.revents j = 0 ∨ r.revents j = w.dir.bit

-- The loop looks at as many slots as are ready, whether these are the ready ones or not.
theorem dispatch_slots {qs : List (Wait × Nat)} {f : Wait × Nat → Pollfd}
    (hzero : ∀ q ∈ qs, (f q).revents = 0 ∨ (f q).revents = q.1.dir.bit)
    (hfd : ∀ q ∈ qs, (f q).fd = q.1.fd) (n : Nat) (st : WaitSets × Sched) :
    dispatch (qs.map f) n st =
      WaitSets.wakeAll (((qs.take n).filter fun q => (f q).revents ≠ 0).map Prod.fst) st := by
  induction qs generalizing n st with
  | nil => simp [dispatch, WaitSets.wakeAll]
  | cons q qs ih =>
    have hrest := ih (fun x hx => hzero x (.tail _ hx)) (fun x hx => hfd x (.tail _ hx))
    cases n with
    | zero => rfl
    | succ n =>
      rw [List.map_cons, dispatch, List.take_succ_cons]
      by_cases hq : (f q).revents = 0
      · rw [dispatchSlot_zero hq, Outcome.bind_returned, hrest,
          List.filter_cons_of_neg (by simpa using hq)]
      · rw [dispatchSlot_bit ((hzero q (.head _)).resolve_left hq), hfd q (.head _),
          List.filter_cons_of_pos (by simpa using hq), List.map_cons, WaitSets.wakeAll, funext (hrest n)]

/-- The registrations whose slots are ready among the first `n`. -/
def readyAmong (p : PollPoller) (r : PollResponse) (n : Nat) : List Wait :=
  ((p.waits.zipIdx.take n).filter fun q => r.revents q.2 ≠ 0).map Prod.fst

theorem poll_eq {r : PollResponse} (h : p.Answers r) (hcap : p.count ≤ p.size) (s : Sched) :
    p.poll s r =
      some ((WaitSets.wakeAll (p.readyAmong r (p.ready r).length) (p.toWaitSets, s)).map
        fun st => ({ p.fillSlots.respond r with toWaitSets := st.1 }, st.2)) := by
  have hres := h.result
  rw [poll, if_neg (by omega)]
  dsimp only
  rw [if_neg (by omega), window_respond, dispatch_slots _ (fun _ _ => rfl), hres,
    Int.toNat_natCast]
  · rfl
  · intro q hq
    exact h.subset q.2 q.1 (List.mem_zipIdx_iff_getElem?.mp hq)

/-- What one call of `poll` has to do: it schedules the coroutines of the ready slots, each once,
    and exactly the other registrations stay. -/
def Delivers (p : PollPoller) (s : Sched) (r : PollResponse) : Prop :=
  ∃ (p' : PollPoller) (order : List Wait), p.poll s r = some (.returned (p', s.push (order.map Wait.entry))) ∧
    order.Perm (p.ready r) ∧ ∀ w, p'.Registered w ↔ p.Registered w ∧ w ∉ p.ready r

theorem readyAmong_append (p : PollPoller) (r : PollResponse) (n : Nat) :
    p.ready r = p.readyAmong r n ++
      ((p.waits.zipIdx.drop n).filter fun q => r.revents q.2 ≠ 0).map Prod.fst := by
  rw [ready, readyAmong, ← List.map_append, ← List.filter_append, List.take_append_drop]

theorem ready_sublist (p : PollPoller) (r : PollResponse) : (p.ready r).Sublist p.waits := by
  have h := (List.filter_sublist (p := fun q => decide (r.revents q.2 ≠ 0))
    (l := p.waits.zipIdx)).map Prod.fst
  rwa [List.zipIdx_map_fst] at h

theorem readyAmong_sublist (p : PollPoller) (r : PollResponse) (n : Nat) :
    (p.readyAmong r n).Sublist p.waits := by
  apply List.Sublist.trans _ (p.ready_sublist r)
  rw [p.readyAmong_append r n]
  exact List.sublist_append_left _ _

-- The loop meets every ready slot if and only if these slots come first.
theorem readyAmong_eq_ready {r : PollResponse} {n : Nat} :
    p.readyAmong r n = p.ready r ↔
      ∀ j < p.count, r.revents j ≠ 0 → j < n := by
  have hmem : ∀ q ∈ p.waits.zipIdx.drop n, n ≤ q.2 ∧ q.2 < p.count := by
    intro q hq
    rcases List.mem_iff_getElem?.mp hq with ⟨i, hi⟩
    rw [List.getElem?_drop, List.getElem?_zipIdx] at hi
    rcases Option.map_eq_some_iff.mp hi with ⟨w, hw, rfl⟩
    have hlt := (List.getElem?_eq_some_iff.mp hw).1
    rw [p.length_waits] at hlt
    exact ⟨by simp, by simpa using hlt⟩
  have happ := p.readyAmong_append r n
  constructor
  · intro heq j hj hr
    by_contra hge
    have hdrop : ((p.waits.zipIdx.drop n).filter fun q => r.revents q.2 ≠ 0).map Prod.fst = [] := by
      rw [heq] at happ
      simpa using happ
    have hj' : j < p.waits.length := by rwa [p.length_waits]
    have hin : (p.waits[j], j) ∈ p.waits.zipIdx.drop n := by
      apply List.mem_iff_getElem?.mpr
      refine ⟨j - n, ?_⟩
      rw [List.getElem?_drop, List.getElem?_zipIdx, show n + (j - n) = j by omega,
        List.getElem?_eq_getElem hj']
      simp
    have hfil := List.map_eq_nil_iff.mp hdrop
    rw [List.filter_eq_nil_iff] at hfil
    exact hfil _ hin (by simpa using hr)
  · intro hfirst
    rw [happ, List.filter_eq_nil_iff.mpr, List.map_nil, List.append_nil]
    intro q hq
    have hb := hmem q hq
    simp only [decide_eq_true_eq, not_not]
    by_contra hr
    have := hfirst q.2 hb.2 hr
    omega

/-- One call of `poll` delivers exactly what is ready if and only if the ready slots are the first
    ones of the array and none of their coroutines is dead. -/
theorem poll_delivers_iff {p : PollPoller} {r : PollResponse} (h : p.Answers r)
    (hcap : p.count ≤ p.size) (s : Sched) :
    p.Delivers s r ↔
      (∀ j < p.count, r.revents j ≠ 0 → (j : Int) < r.result) ∧
        ∀ w ∈ p.ready r, (s.coros w.co).dead = false := by
  have hsub := p.readyAmong_sublist r (p.ready r).length
  have hreg : ∀ w ∈ p.readyAmong r (p.ready r).length, p.Registered w :=
    fun w hw => mem_waits.mp (hsub.subset hw)
  have hkeys := p.waits_keys_ne.sublist hsub
  have hfirst : (∀ j < p.count, r.revents j ≠ 0 → (j : Int) < r.result) ↔
      p.readyAmong r (p.ready r).length = p.ready r := by
    rw [readyAmong_eq_ready, h.result]
    simp only [Nat.cast_lt]
  rw [hfirst]
  constructor
  · rintro ⟨p', order, hpoll, hperm, -⟩
    rw [poll_eq h hcap, Option.some.injEq] at hpoll
    have halive : ∀ w ∈ p.readyAmong r (p.ready r).length, (s.coros w.co).dead = false := by
      intro w hw
      by_contra hd
      have hthrow := WaitSets.wakeAll_dead hreg hkeys (s := s) ⟨w, hw, by simpa using hd⟩
      rw [← Outcome.isReturned_map, hpoll] at hthrow
      cases hthrow
    rcases WaitSets.wakeAll_alive hreg hkeys halive with ⟨left, hrun, -⟩
    rw [hrun] at hpoll
    have hlen : (p.readyAmong r (p.ready r).length).length = (p.ready r).length := by
      have hpush := congrArg (fun st => st.2.pending.length) (Outcome.returned.inj hpoll)
      simp only [Sched.push, List.length_append, List.length_map] at hpush
      have hcount := hperm.length_eq
      omega
    have heq : p.readyAmong r (p.ready r).length = p.ready r := by
      have hpre : p.readyAmong r (p.ready r).length <+: p.ready r :=
        ⟨_, (p.readyAmong_append r (p.ready r).length).symm⟩
      exact hpre.eq_of_length hlen
    exact ⟨heq, fun w hw => halive w (by rwa [heq])⟩
  · rintro ⟨heq, halive⟩
    rw [heq] at hreg hkeys
    rcases WaitSets.wakeAll_alive hreg hkeys halive with ⟨left, hrun, hleft⟩
    refine ⟨{ p.fillSlots.respond r with toWaitSets := left }, p.ready r, ?_, .refl _, fun w => ?_⟩
    · rw [poll_eq h hcap, heq, hrun, Outcome.map_returned]
    · rw [show PollPoller.toWaitSets _ = left from rfl, hleft]
      refine and_congr_right fun hw => ⟨fun hne hin => hne w hin ⟨rfl, rfl⟩, ?_⟩
      rintro hnot v hv ⟨hdir, hfd⟩
      -- two registrations with the same key are the same one
      rw [hw.eq_of_key (mem_waits.mp ((p.ready_sublist r).subset hv)) hdir hfd] at hnot
      exact hnot hv

/-- Coroutines 1 and 2 wait to read from descriptors 3 and 4. -/
def twoReaders : PollPoller :=
  (({ pollSet := fun _ => ⟨0, 0, 0⟩, size := 8 } : PollPoller).setWaitForRead 3 1).setWaitForRead 4 2

/-- Only slot `j` is ready, for reading. -/
def onlySlot (j : Nat) : PollResponse := ⟨1, fun i => if i = j then pollin else 0⟩

theorem twoReaders_answers {j : Nat} (h : j < 2) : twoReaders.Answers (onlySlot j) where
  result := by
    have hj : j = 0 ∨ j = 1 := by omega
    rcases hj with rfl | rfl <;> decide
  subset := by
    intro i w hw
    have hwaits : twoReaders.waits = [⟨.read, 4, 2⟩, ⟨.read, 3, 1⟩] := by decide
    have hdir : w.dir = .read := by
      have hmem := List.mem_of_getElem? hw
      rw [hwaits] at hmem
      simp only [List.mem_cons, List.not_mem_nil, or_false] at hmem
      rcases hmem with rfl | rfl <;> rfl
    by_cases hi : i = j
    · right
      rw [hdir]
      exact if_pos hi
    · left
      exact if_neg hi

theorem poll_delivers_first_slot : twoReaders.Delivers {} (onlySlot 0) := by
  apply (poll_delivers_iff (twoReaders_answers (by decide)) (by decide) {}).mpr
  exact ⟨by decide, by decide⟩

/-- Slot 1 is ready and slot 0 is not: the loop stops after slot 0. -/
theorem poll_misses_second_slot :
    twoReaders.Answers (onlySlot 1) ∧ twoReaders.count ≤ twoReaders.size ∧
      ¬twoReaders.Delivers {} (onlySlot 1) := by
  refine ⟨twoReaders_answers (by decide), by decide, ?_⟩
  rintro ⟨p', order, hpoll, hperm, -⟩
  have hnone : (twoReaders.poll {} (onlySlot 1)).map (fun out => out.state.2.pending) =
      some [] := by decide
  rw [hpoll] at hnone
  have horder : order = [] := by simpa [Sched.push] using hnone
  rw [horder] at hperm
  have hready : (twoReaders.ready (onlySlot 1)).length = 1 := by decide
  rw [← hperm.length_eq] at hready
  cases hready

end PollPoller

end Coropp
