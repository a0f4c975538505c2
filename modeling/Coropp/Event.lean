import Mathlib.Data.List.Perm.Basic

/-!
# Timers: `struct timeval`, `event` and the event queue

The macros of `sys/time.h` that the scheduler uses, the `event` record, and
`std::priority_queue` with `compare_events`.
-/

namespace Coropp

/-- A `coro *`. -/
abbrev CoroId := Nat

/-- A `void *` handed through the scheduler; `0` is the null pointer. -/
abbrev Arg := Nat

/-- `struct timeval`. -/
structure Timeval where
  sec : Int
  usec : Int
deriving DecidableEq, Repr

/-- `timercmp (a, b, <)`: the microseconds decide only between equal seconds. -/
def timercmpLt (a b : Timeval) : Bool :=
  if a.sec = b.sec then decide (a.usec < b.usec) else decide (a.sec < b.sec)

/-- `timercmp (a, b, >)`. -/
def timercmpGt (a b : Timeval) : Bool :=
  if a.sec = b.sec then decide (a.usec > b.usec) else decide (a.sec > b.sec)

/-- `timeradd (a, b, result)`. -/
def timeradd (a b : Timeval) : Timeval :=
  if a.usec + b.usec ≥ 1000000 then ⟨a.sec + b.sec + 1, a.usec + b.usec - 1000000⟩
  else ⟨a.sec + b.sec, a.usec + b.usec⟩

theorem timercmpGt_eq_lt (a b : Timeval) : timercmpGt a b = timercmpLt b a := by
  simp only [timercmpGt, timercmpLt, gt_iff_lt, eq_comm]

theorem timercmpLt_negTrans {a b c : Timeval} (hab : timercmpLt a b = false)
    (hbc : timercmpLt b c = false) : timercmpLt a c = false := by
  simp only [timercmpLt] at *
  split_ifs at * <;> simp only [decide_eq_false_iff_not] at * <;> omega

theorem timercmpLt_asymm {a b : Timeval} (h : timercmpLt a b = true) :
    timercmpLt b a = false := by
  simp only [timercmpLt] at *
  split_ifs at * <;> simp only [decide_eq_true_eq, decide_eq_false_iff_not] at * <;> omega

/-- `class event`. -/
structure Event where
  t : Timeval
  args : Arg
  coro : CoroId
deriving DecidableEq, Repr

/-- `compare_events`: the event with the later deadline is the smaller heap element. -/
def compareEvents (a b : Event) : Bool := timercmpGt a.t b.t

/-- `event_list::top ()`.  It answers an event that no other precedes; which one of several with
    the same deadline depends on how the heap was built, and is left open. -/
structure TopRule where
  top : (events : List Event) → events ≠ [] → Event
  top_mem : ∀ events h, top events h ∈ events
  top_least : ∀ events h, ∀ e ∈ events, compareEvents (top events h) e = false

/-- The earlier of two events, the first one when they tie. -/
def earlier (a b : Event) : Event := if compareEvents a b then b else a

theorem foldl_earlier_mem (e : Event) (es : List Event) : es.foldl earlier e ∈ e :: es := by
  induction es generalizing e with
  | nil => simp
  | cons f es ih =>
    have hrest := ih (earlier e f)
    have hstep : earlier e f = f ∨ earlier e f = e := by
      unfold earlier
      split
      · exact .inl rfl
      · exact .inr rfl
    simp only [List.foldl_cons, List.mem_cons] at hrest ⊢
    rcases hrest with hhead | htail
    · rw [hhead]
      exact hstep.elim (fun h => .inr (.inl h)) .inl
    · exact .inr (.inr htail)

theorem foldl_earlier_least (e : Event) (es : List Event) :
    ∀ f ∈ e :: es, compareEvents (es.foldl earlier e) f = false := by
  simp only [compareEvents, timercmpGt_eq_lt]
  induction es generalizing e with
  | nil => simp [timercmpLt]
  | cons f es ih =>
    have hrest := ih (earlier e f)
    have hhead := hrest (earlier e f) (by simp)
    have hmin : timercmpLt e.t (earlier e f).t = false ∧ timercmpLt f.t (earlier e f).t = false := by
      unfold earlier compareEvents
      rw [timercmpGt_eq_lt]
      split
      · rename_i h
        exact ⟨timercmpLt_asymm h, by simp [timercmpLt]⟩
      · rename_i h
        exact ⟨by simp [timercmpLt], by simpa using h⟩
    intro g hg
    simp only [List.mem_cons] at hg
    rcases hg with rfl | rfl | hg
    · exact timercmpLt_negTrans hmin.1 hhead
    · exact timercmpLt_negTrans hmin.2 hhead
    · exact hrest g (by simp [hg])

/-- The rule that answers the first of the earliest events. -/
def TopRule.first : TopRule where
  top
    | [], h => absurd rfl h
    | e :: es, _ => es.foldl earlier e
  top_mem
    | [], h => absurd rfl h
    | e :: es, _ => foldl_earlier_mem e es
  top_least
    | [], h => absurd rfl h
    | e :: es, _ => foldl_earlier_least e es

end Coropp
