import Coropp.Timers

/-!
# `time_to_next_event`

The timeout of a poll, computed in the arithmetic of `long`, which is that of `time_t` and
`suseconds_t` and has 32 bits on one of the two architectures.
-/

namespace Coropp

/-- The width of `long`. -/
inductive LongWidth where
  | bits32
  | bits64
deriving DecidableEq, Repr

namespace LongWidth

def max : LongWidth → Int
  | bits32 => 0x7fffffff
  | bits64 => 0x7fffffffffffffff

def min (w : LongWidth) : Int := -w.max - 1

def Holds (w : LongWidth) (x : Int) : Prop := w.min ≤ x ∧ x ≤ w.max

instance (w : LongWidth) (x : Int) : Decidable (w.Holds x) := inferInstanceAs (Decidable (_ ∧ _))

/-- The result of an operation on `long`; an overflow is undefined. -/
def checked (w : LongWidth) (x : Int) : Option Int := if w.Holds x then some x else none

end LongWidth

/-- `timersub (a, b, result)`. -/
def timersub (w : LongWidth) (a b : Timeval) : Option Timeval :=
  (w.checked (a.sec - b.sec)).bind fun sec =>
    (w.checked (a.usec - b.usec)).bind fun usec =>
      if usec < 0 then
        (w.checked (sec - 1)).bind fun sec =>
          (w.checked (usec + 1000000)).map fun usec => ⟨sec, usec⟩
      else some ⟨sec, usec⟩

/-- `time_to_next_event ()` at the clock reading `t0`. -/
def timeToNextEvent (w : LongWidth) (rule : TopRule) (events : List Event) (t0 : Timeval) :
    Option Int :=
  if h : events = [] then some 30000000 -- 30s
  else
    (timersub w (rule.top events h).t t0).bind fun t1 =>
      if t1.sec ≥ 0 ∧ t1.usec > 0 then
        (w.checked (t1.sec * 1000000)).bind fun product => w.checked (product + t1.usec)
      else some 0

/-- From `now` to the earliest deadline it is `d` microseconds. -/
structure Until (events : List Event) (now : Timeval) (d : Int) : Prop where
  reached : ∃ e ∈ events, d = e.t.micros - now.micros
  least : ∀ e ∈ events, d ≤ e.t.micros - now.micros

/-- The deadline is not ahead, nor longer past than a `long` counts seconds; or it is ahead by a
    number of microseconds that is not a number of whole seconds and that a `long` holds. -/
def Timely (w : LongWidth) (d : Int) : Prop :=
  d ≤ 0 ∧ w.min ≤ d / 1000000 ∨ 0 < d ∧ d % 1000000 ≠ 0 ∧ d ≤ w.max

instance (w : LongWidth) (d : Int) : Decidable (Timely w d) := inferInstanceAs (Decidable (_ ∨ _))

namespace LongWidth

variable {w : LongWidth} {x : Int}

theorem checked_of_holds (h : w.Holds x) : w.checked x = some x := if_pos h

theorem checked_of_not (h : ¬w.Holds x) : w.checked x = none := if_neg h

-- Differences of microseconds are never too large.
theorem holds_small (w : LongWidth) (hlo : -1000000 < x) (hhi : x < 1000000) : w.Holds x := by
  unfold Holds min
  cases w with
  | bits32 =>
    show -0x7fffffff - 1 ≤ x ∧ x ≤ 0x7fffffff
    omega
  | bits64 =>
    show -0x7fffffffffffffff - 1 ≤ x ∧ x ≤ 0x7fffffffffffffff
    omega

end LongWidth

section

variable {w : LongWidth} {a b : Timeval} {d : Int}

-- The difference of normalised times is exact and normalised, where it is defined.
theorem timersub_eq (w : LongWidth) (ha : a.Normalised) (hb : b.Normalised)
    (hd : a.micros - b.micros = d) :
    timersub w a b =
      if w.Holds (a.sec - b.sec) ∧ w.Holds (d / 1000000) then some ⟨d / 1000000, d % 1000000⟩
      else none := by
  unfold Timeval.Normalised at ha hb
  unfold Timeval.micros at hd
  unfold timersub
  by_cases hsec : w.Holds (a.sec - b.sec)
  · rw [LongWidth.checked_of_holds hsec, Option.bind_some,
      LongWidth.checked_of_holds (w.holds_small (by omega) (by omega)), Option.bind_some]
    split
    · have hdiv : a.sec - b.sec - 1 = d / 1000000 := by omega
      have hmod : a.usec - b.usec + 1000000 = d % 1000000 := by omega
      rw [hdiv, hmod]
      by_cases hborrow : w.Holds (d / 1000000)
      · rw [LongWidth.checked_of_holds hborrow, Option.bind_some,
          LongWidth.checked_of_holds (w.holds_small (by omega) (by omega)), Option.map_some,
          if_pos ⟨hsec, hborrow⟩]
      · rw [LongWidth.checked_of_not hborrow, if_neg fun h => hborrow h.2]
        rfl
    · have hdiv : a.sec - b.sec = d / 1000000 := by omega
      have hmod : a.usec - b.usec = d % 1000000 := by omega
      rw [← hdiv, ← hmod, if_pos ⟨hsec, hsec⟩]
  · rw [LongWidth.checked_of_not hsec, if_neg fun h => hsec h.1]
    rfl

-- What is made of the difference.
theorem timeout_eq (w : LongWidth) (hd : 0 ≤ d) :
    ((w.checked (d / 1000000 * 1000000)).bind fun product => w.checked (product + d % 1000000)) =
      w.checked d := by
  have hsum : d / 1000000 * 1000000 + d % 1000000 = d := by omega
  by_cases hproduct : w.Holds (d / 1000000 * 1000000)
  · rw [LongWidth.checked_of_holds hproduct, Option.bind_some, hsum]
  · have hnot : ¬w.Holds d := by
      intro h
      apply hproduct
      have hhi := h.2
      have hmin : w.min ≤ 0 := by cases w <;> decide
      refine ⟨by omega, by omega⟩
    rw [LongWidth.checked_of_not hproduct, LongWidth.checked_of_not hnot]
    rfl

theorem LongWidth.large (w : LongWidth) : 1000000 ≤ w.max := by
  cases w <;> decide

theorem checked_timely_iff (hahead : 0 < d) (husec : d % 1000000 > 0) :
    w.checked d = some d ↔ Timely w d := by
  have hmax := w.large
  have hmin : w.min = -w.max - 1 := rfl
  have hholds : w.checked d = some d ↔ w.Holds d := by
    unfold LongWidth.checked
    split
    · rename_i h
      exact iff_of_true rfl h
    · rename_i h
      exact iff_of_false (fun hnone => nomatch hnone) h
  rw [hholds]
  unfold LongWidth.Holds Timely
  omega

-- A timely deadline has a difference of seconds that is defined, with a borrow or without.
theorem Timely.holds (h : Timely w d) {sec : Int} (hlo : d / 1000000 ≤ sec)
    (hhi : sec ≤ d / 1000000 + 1) : w.Holds sec ∧ w.Holds (d / 1000000) := by
  have hmax := w.large
  unfold LongWidth.Holds
  rcases h with ⟨hpast, hmin⟩ | ⟨hahead, -, hle⟩
  · omega
  · have hmin : w.min = -w.max - 1 := rfl
    omega

end

-- `_events->top ()` has the earliest deadline.
theorem Until.top {events : List Event} {now : Timeval} {d : Int} (hd : Until events now d)
    (hevents : ∀ e ∈ events, e.t.Normalised) (rule : TopRule) (h : events ≠ []) :
    (rule.top events h).t.micros - now.micros = d := by
  have hmem := rule.top_mem events h
  rcases hd.reached with ⟨e, he, hde⟩
  have hleast := hd.least _ hmem
  have hnot := rule.top_least events h e he
  rw [compareEvents, timercmpGt_eq_lt] at hnot
  have hle : ¬e.t.micros < (rule.top events h).t.micros := by
    intro hlt
    have hcmp := (timercmpLt_iff (hevents e he) (hevents _ hmem)).mpr hlt
    cases hcmp.symm.trans hnot
  omega

/-- `time_to_next_event` gives the time to the earliest deadline, 0 where it is past, if and only if
    that time is neither a number of whole seconds ahead nor too large for a `long`. -/
theorem timeToNextEvent_exact_iff (w : LongWidth) (rule : TopRule) {events : List Event}
    {now : Timeval} {d : Int} (hevents : ∀ e ∈ events, e.t.Normalised) (hnow : now.Normalised)
    (hd : Until events now d) :
    timeToNextEvent w rule events now = some (max d 0) ↔ Timely w d := by
  have hne : events ≠ [] := by
    rcases hd.reached with ⟨e, he, -⟩
    exact List.ne_nil_of_mem he
  have htop := hd.top hevents rule hne
  have htopNorm := hevents _ (rule.top_mem events hne)
  have hsecs : d / 1000000 ≤ (rule.top events hne).t.sec - now.sec ∧
      (rule.top events hne).t.sec - now.sec ≤ d / 1000000 + 1 := by
    unfold Timeval.Normalised at htopNorm hnow
    unfold Timeval.micros at htop
    omega
  unfold timeToNextEvent
  rw [dif_neg hne, timersub_eq w htopNorm hnow htop]
  by_cases hdefined : w.Holds ((rule.top events hne).t.sec - now.sec) ∧ w.Holds (d / 1000000)
  · rw [if_pos hdefined, Option.bind_some]
    dsimp only
    by_cases hahead : d / 1000000 ≥ 0 ∧ d % 1000000 > 0
    · have hpos : 0 < d := by omega
      rw [if_pos hahead, timeout_eq w (by omega), max_eq_left (by omega)]
      exact checked_timely_iff hpos hahead.2
    · rw [if_neg hahead]
      -- a deadline that is ahead, if it is, is a number of whole seconds ahead
      have hmin := hdefined.2.1
      have hzero : some 0 = some (max d 0) ↔ d ≤ 0 := by
        rw [Option.some.injEq, eq_comm, max_eq_right_iff]
      rw [hzero]
      unfold Timely
      omega
  · rw [if_neg hdefined]
    apply iff_of_false
    · exact fun hnone => nomatch hnone
    · exact fun htimely => hdefined (htimely.holds hsecs.1 hsecs.2)

/-- Half a second ahead, in 32 bits. -/
theorem timeToNextEvent_half_second :
    timeToNextEvent .bits32 .first [⟨⟨5, 0⟩, 0, 1⟩] ⟨4, 500000⟩ = some 500000 := by
  have hd : Until [⟨⟨5, 0⟩, 0, 1⟩] ⟨4, 500000⟩ 500000 := ⟨⟨_, .head _, by decide⟩, by decide⟩
  have hexact := (timeToNextEvent_exact_iff .bits32 .first (by decide) (by decide) hd).mpr (by decide)
  exact hexact

/-- A deadline 5 seconds ahead counts as past, and one 3000 seconds ahead overflows 32 bits. -/
theorem timeToNextEvent_spins :
    (Until [⟨⟨10, 7⟩, 0, 1⟩] ⟨5, 7⟩ 5000000 ∧
        timeToNextEvent .bits64 .first [⟨⟨10, 7⟩, 0, 1⟩] ⟨5, 7⟩ = some 0) ∧
      Until [⟨⟨3000, 7⟩, 0, 1⟩] ⟨0, 0⟩ 3000000007 ∧
        timeToNextEvent .bits32 .first [⟨⟨3000, 7⟩, 0, 1⟩] ⟨0, 0⟩ = none := by
  refine ⟨⟨⟨⟨_, .head _, by decide⟩, by decide⟩, by decide⟩, ⟨⟨_, .head _, by decide⟩, by decide⟩, ?_⟩
  decide

end Coropp
