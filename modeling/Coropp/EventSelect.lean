import Coropp.WaitSets
import Coropp.Lib.Loop

/-!
# `class select_poller`

The sets handed to `select` and the dispatch of its answer.  The dispatch loop erases an entry and
then advances the iterator of that entry, which C++ leaves undefined.
-/

namespace Coropp

/-- The arguments of one call of `select`. -/
structure SelectCall where
  nfds : Int
  readfds : List Fd
  writefds : List Fd
  timeout : Timeval

/-- What the kernel answers: the result, and the bits left in the two sets. -/
structure SelectResponse where
  result : Int
  readfds : Fd → Bool
  writefds : Fd → Bool

/-- How the dispatch of an answer ends: as an operation does, or on the iterator of an entry that
    has just been erased. -/
inductive SelectEnd where
  | ended (out : Outcome (WaitSets × Sched))
  | erasedIterator (w : WaitSets) (s : Sched)

def SelectEnd.state : SelectEnd → WaitSets × Sched
  | ended out => out.state
  | erasedIterator w s => (w, s)

structure SelectPoller extends WaitSets

namespace SelectPoller

def setWaitForRead (p : SelectPoller) (fd : Fd) (c : CoroId) : SelectPoller :=
  ⟨p.setWaitFor .read fd c⟩

def setWaitForWrite (p : SelectPoller) (fd : Fd) (c : CoroId) : SelectPoller :=
  ⟨p.setWaitFor .write fd c⟩

def fdSetsize : Int := 1024

def maxFd (p : SelectPoller) : Int :=
  p.writeSet.keys.foldl (fun m fd => max fd m) (p.readSet.keys.foldl (fun m fd => max fd m) 0)

/-- The call of `select` that `poll (timeout_usec)` makes. -/
def call (p : SelectPoller) (timeoutUsec : Int) : SelectCall where
  nfds := p.maxFd + 1
  readfds := p.readSet.keys
  writefds := p.writeSet.keys
  timeout := ⟨toInt32 (timeoutUsec.tdiv 1000000), toInt32 (timeoutUsec.tmod 1000000)⟩

/-- A pass over the entries of one map; `none` when it meets no bit and gets to the end. -/
def scan (dir : Direction) (bits : Fd → Bool) (w : WaitSets) (s : Sched) :
    List (Fd × CoroId) → Option SelectEnd
  | [] => none
  | (fd, co) :: entries =>
    if bits fd then
      match s.schedule co 0 with
      | .returned s => some (.erasedIterator (w.erase dir fd) s)
      | .deadCoro z s => some (.ended (.deadCoro z (w, s)))
    else scan dir bits w s entries

/-- `while (n)`, for at most `turns` turns.  A turn that ends normally has changed nothing. -/
def dispatch (r : SelectResponse) (w : WaitSets) (s : Sched) : Nat → Option SelectEnd
  | 0 => none
  | turns + 1 =>
    if r.result = 0 then some (.ended (.returned (w, s)))
    else
      match scan .read r.readfds w s w.readSet.toList with
      | some e => some e
      | none =>
        match scan .write r.writefds w s w.writeSet.toList with
        | some e => some e
        | none => dispatch r w s turns

/-- `poll`, when `select` answers `r`.  `FD_SET` needs descriptors below `FD_SETSIZE`. -/
def poll (p : SelectPoller) (s : Sched) (timeoutUsec : Int) (r : SelectResponse) (turns : Nat) :
    Option SelectEnd :=
  let c := p.call timeoutUsec
  if (c.readfds ++ c.writefds).any fun fd => fd < 0 ∨ fdSetsize ≤ fd then none
  -- "select() failed"
  else if r.result < 0 then some (.ended (.returned (p.toWaitSets, s)))
  else dispatch r p.toWaitSets s turns

-- What a pass does to the registrations.
theorem scan_moves {dir : Direction} {bits : Fd → Bool} {w : WaitSets} {s : Sched}
    {entries : List (Fd × CoroId)} {e : SelectEnd}
    (hmem : ∀ x ∈ entries, (w.waitSet dir)[x.1]? = some x.2)
    (h : scan dir bits w s entries = some e) :
    ∃ woken : List Wait, w.registrations.Perm (woken ++ e.state.1.registrations) ∧
      e.state.2.hist.accepted = s.hist.accepted ++ woken.map Wait.entry := by
  induction entries with
  | nil => cases h
  | cons x entries ih =>
    rcases x with ⟨fd, co⟩
    rw [scan] at h
    split at h
    · have hreg : (w.waitSet dir)[fd]? = some co := hmem _ (.head _)
      cases hd : (s.coros co).dead with
      | false =>
        rw [Sched.schedule_alive hd] at h
        obtain rfl := Option.some.inj h
        exact ⟨[⟨dir, fd, co⟩], WaitSets.registrations_erase hreg, rfl⟩
      | true =>
        rw [Sched.schedule_dead hd] at h
        obtain rfl := Option.some.inj h
        exact ⟨[], .refl _, by simp [SelectEnd.state]⟩
    · exact ih (fun x hx => hmem x (.tail _ hx)) h

theorem dispatch_moves {r : SelectResponse} {w : WaitSets} {s : Sched} {turns : Nat}
    {e : SelectEnd} (h : dispatch r w s turns = some e) :
    ∃ woken : List Wait, w.registrations.Perm (woken ++ e.state.1.registrations) ∧
      e.state.2.hist.accepted = s.hist.accepted ++ woken.map Wait.entry := by
  induction turns with
  | zero => cases h
  | succ turns ih =>
    rw [dispatch] at h
    split at h
    · obtain rfl := Option.some.inj h
      exact ⟨[], .refl _, by simp [SelectEnd.state]⟩
    · split at h
      next e' hread =>
        obtain rfl := Option.some.inj h
        exact scan_moves (fun x hx => Maps.mem_toList.mp hx) hread
      next =>
        split at h
        next e' hwrite =>
          obtain rfl := Option.some.inj h
          exact scan_moves (fun x hx => Maps.mem_toList.mp hx) hwrite
        next => exact ih h

-- Whatever `select` answers, `poll` only moves registrations into `_pending`.
theorem poll_moves {p : SelectPoller} {s : Sched} {timeoutUsec : Int} {r : SelectResponse}
    {turns : Nat} {e : SelectEnd} (h : p.poll s timeoutUsec r turns = some e) :
    ∃ woken : List Wait, p.registrations.Perm (woken ++ e.state.1.registrations) ∧
      e.state.2.hist.accepted = s.hist.accepted ++ woken.map Wait.entry := by
  unfold poll at h
  dsimp only at h
  split at h
  · cases h
  · split at h
    · obtain rfl := Option.some.inj h
      exact ⟨[], .refl _, by simp [SelectEnd.state]⟩
    · exact dispatch_moves h

-- A poll registers nobody.
theorem poll_registered {p : SelectPoller} {s : Sched} {timeoutUsec : Int} {r : SelectResponse}
    {turns : Nat} {e : SelectEnd} (h : p.poll s timeoutUsec r turns = some e) {v : Wait}
    (hv : e.state.1.Registered v) : p.Registered v := by
  rcases poll_moves h with ⟨woken, hperm, -⟩
  rw [← WaitSets.mem_registrations] at hv ⊢
  exact hperm.mem_iff.mpr (List.mem_append_right _ hv)

/-! ## What one dispatch has to do -/

/-- The bits of one direction. -/
def bits (r : SelectResponse) : Direction → Fd → Bool
  | .read => r.readfds
  | .write => r.writefds

/-- The registrations whose bits are set. -/
def ready (w : WaitSets) (r : SelectResponse) : List Wait :=
  w.registrations.filter fun v => bits r v.dir v.fd

/-- The answer of a successful `select`: it sets no bit that was not submitted, and its result
    counts the bits. -/
structure Answers (w : WaitSets) (r : SelectResponse) : Prop where
  result : r.result = (ready w r).length
  subset : ∀ dir fd, bits r dir fd = true → ∃ co, (w.waitSet dir)[fd]? = some co

/-- The dispatch loop ends, on valid iterators; it schedules the coroutines of the set bits, each
    once, and exactly the other registrations stay. -/
def Sound (w : WaitSets) (s : Sched) (r : SelectResponse) : Prop :=
  ∃ (w' : WaitSets) (order : List Wait),
    Loops.Yields (dispatch r w s) (.ended (.returned (w', s.push (order.map Wait.entry)))) ∧
    order.Perm (ready w r) ∧ ∀ v, w'.Registered v ↔ w.Registered v ∧ v ∉ ready w r

-- A pass that stops does so on an entry it has erased, or on a dead coroutine.
theorem scan_stops {dir : Direction} {bits : Fd → Bool} {w : WaitSets} {s : Sched}
    {entries : List (Fd × CoroId)} {e : SelectEnd} (h : scan dir bits w s entries = some e)
    (st : WaitSets × Sched) : e ≠ .ended (.returned st) := by
  induction entries with
  | nil => cases h
  | cons x entries ih =>
    rcases x with ⟨fd, co⟩
    rw [scan] at h
    split at h
    · cases hd : (s.coros co).dead with
      | false =>
        rw [Sched.schedule_alive hd] at h
        obtain rfl := Option.some.inj h
        exact fun heq => nomatch heq
      | true =>
        rw [Sched.schedule_dead hd] at h
        obtain rfl := Option.some.inj h
        exact fun heq => nomatch heq
    · exact ih h

-- A pass that comes to its end has met no bit.
theorem scan_none {dir : Direction} {bits : Fd → Bool} {w : WaitSets} {s : Sched}
    {entries : List (Fd × CoroId)} (h : scan dir bits w s entries = none) :
    ∀ x ∈ entries, bits x.1 = false := by
  induction entries with
  | nil => exact fun x hx => absurd hx List.not_mem_nil
  | cons x entries ih =>
    rcases x with ⟨fd, co⟩
    rw [scan] at h
    split at h
    · cases hd : (s.coros co).dead with
      | false =>
        rw [Sched.schedule_alive hd] at h
        cases h
      | true =>
        rw [Sched.schedule_dead hd] at h
        cases h
    · rename_i hbit
      exact List.forall_mem_cons.mpr ⟨by simpa using hbit, ih h⟩

-- With a bit set, no turn of the loop ends normally.
theorem dispatch_stops {w : WaitSets} {s : Sched} {r : SelectResponse} (hres : r.result ≠ 0)
    {turns : Nat} {e : SelectEnd} (h : dispatch r w s turns = some e) (st : WaitSets × Sched) :
    e ≠ .ended (.returned st) := by
  induction turns with
  | zero => cases h
  | succ turns ih =>
    rw [dispatch, if_neg hres] at h
    split at h
    next e' hread =>
      obtain rfl := Option.some.inj h
      exact scan_stops hread st
    next =>
      split at h
      next e' hwrite =>
        obtain rfl := Option.some.inj h
        exact scan_stops hwrite st
      next => exact ih h

-- With a bit set, the first turn stops the loop.
theorem dispatch_first_turn {w : WaitSets} {r : SelectResponse} (h : Answers w r)
    (hres : r.result ≠ 0) (s : Sched) (turns : Nat) :
    ∃ e, dispatch r w s (turns + 1) = some e := by
  rw [dispatch, if_neg hres]
  cases hread : scan .read r.readfds w s w.readSet.toList with
  | some e => exact ⟨e, rfl⟩
  | none =>
    cases hwrite : scan .write r.writefds w s w.writeSet.toList with
    | some e => exact ⟨e, rfl⟩
    | none =>
      -- no entry of either map has its bit set
      have hnone : ready w r = [] := by
        rw [ready, WaitSets.registrations, List.filter_append, List.filter_map, List.filter_map,
          List.filter_eq_nil_iff.mpr, List.filter_eq_nil_iff.mpr]
        · rfl
        · intro x hx
          simpa [Wait.ofEntry, bits] using scan_none hwrite x hx
        · intro x hx
          simpa [Wait.ofEntry, bits] using scan_none hread x hx
      have hlen := h.result
      rw [hnone] at hlen
      exact absurd hlen hres

/-- One dispatch is sound if and only if there is nothing to dispatch. -/
theorem dispatch_sound_iff {w : WaitSets} {r : SelectResponse} (h : Answers w r) (s : Sched) :
    Sound w s r ↔ r.result = 0 := by
  constructor
  · rintro ⟨w', order, ⟨n, hyields⟩, -, -⟩
    by_contra hres
    exact dispatch_stops hres (hyields n (Nat.le_refl n)) _ rfl
  · intro hres
    have hnone : ready w r = [] := by
      have hlen := h.result
      rw [hres] at hlen
      exact List.eq_nil_of_length_eq_zero (by omega)
    refine ⟨w, [], ⟨1, fun m hm => ?_⟩, ?_, fun v => ?_⟩
    · cases m with
      | zero => omega
      | succ turns =>
        rw [dispatch, if_pos hres, List.map_nil, Sched.push_nil]
    · rw [hnone]
    · rw [hnone]
      simp

/-- Coroutine 1 waits to read from descriptor 3. -/
def oneReader : SelectPoller := ({} : SelectPoller).setWaitForRead 3 1

/-- Descriptor 3 is ready for reading, or it is not. -/
def readable (b : Bool) : SelectResponse := ⟨b.toNat, fun fd => b && fd == 3, fun _ => false⟩

theorem oneReader_answers (b : Bool) : Answers oneReader.toWaitSets (readable b) where
  result := by
    cases b <;> decide
  subset := by
    intro dir fd hbit
    cases dir with
    | read =>
      have hfd : fd = 3 := by
        have hand : (b && fd == 3) = true := hbit
        simpa using (Bool.and_eq_true_iff.mp hand).2
      exact ⟨1, by rw [hfd]; rfl⟩
    | write => cases hbit

theorem dispatch_sound_nothing_ready : Sound oneReader.toWaitSets {} (readable false) :=
  (dispatch_sound_iff (oneReader_answers false) {}).mpr rfl

theorem ready_advances_erased :
    Answers oneReader.toWaitSets (readable true) ∧
      (∃ w' s', dispatch (readable true) oneReader.toWaitSets {} 1 =
        some (.erasedIterator w' s')) ∧
      ¬Sound oneReader.toWaitSets {} (readable true) := by
  refine ⟨oneReader_answers true, ⟨_, _, rfl⟩, ?_⟩
  rintro ⟨w', order, ⟨n, hyields⟩, -, -⟩
  exact dispatch_stops (by decide) (hyields n (Nat.le_refl n)) _ rfl

end SelectPoller

end Coropp
