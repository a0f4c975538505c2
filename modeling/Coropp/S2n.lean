import Coropp.File
import Coropp.WaitSets
import Coropp.Lib.Transition

/-!
# `coro_s2n::_check_negotiate`

The handshake loop.  It decides from the result of `s2n_negotiate`, from `blocked`, and from `errno`,
which belongs to the thread: an earlier call or another coroutine may have left it behind.
-/

namespace Coropp

open Transition

/-- `s2n_blocked_status`. -/
inductive BlockedStatus where
  | notBlocked
  | blockedOnRead
  | blockedOnWrite
deriving DecidableEq, Repr

/-- `S2N_Error (fun)`. -/
structure S2nError where
  fn : String
deriving DecidableEq, Repr

/-- How a call of `s2n_negotiate` ends.  `r` is its negative result and `errno` what it sets `errno`
    to; a failure of the protocol may set nothing, and never sets `EWOULDBLOCK`. -/
inductive NegotiateOutcome where
  | success
  | wouldBlock (r : { r : Int // r < 0 }) (blocked : BlockedStatus)
  | failure (r : { r : Int // r < 0 }) (blocked : BlockedStatus)
      (errno : Option { e : Errno // e ≠ ewouldblock })
deriving DecidableEq

namespace NegotiateOutcome

def result : NegotiateOutcome → Int
  | success => 0
  | wouldBlock r _ => r
  | failure r _ _ => r

/-- What the call stores in `blocked`. -/
def blocked : NegotiateOutcome → BlockedStatus
  | success => .notBlocked
  | wouldBlock _ blocked => blocked
  | failure _ blocked _ => blocked

/-- `errno` after the call. -/
def errnoAfter (errno : Errno) : NegotiateOutcome → Errno
  | success => errno
  | wouldBlock _ _ => ewouldblock
  | failure _ _ none => errno
  | failure _ _ (some e) => e

end NegotiateOutcome

/-- `_check`. -/
def check (errno : Errno) (fn : String) (r : Int) : Except S2nError Int :=
  if r < 0 then
    if errno = ewouldblock then .ok 0
    else .error ⟨fn⟩
  else .ok r

/-- `_wait_on_event`: what it waits for before it returns false, and `none` where it returns true. -/
def waitOnEvent : BlockedStatus → Option Direction
  | .blockedOnRead => some .read
  | .blockedOnWrite => some .write
  | .notBlocked => none

/-- What a round of the loop comes to. -/
inductive Reaction where
  | raises (e : S2nError)
  | waits (dir : Direction)
  | breaks
deriving DecidableEq, Repr

/-- One round of the loop of `_check_negotiate`. -/
def negotiateRound (errno : Errno) (o : NegotiateOutcome) : Reaction :=
  match check (o.errnoAfter errno) "s2n_negotiate" o.result with
  | .error e => .raises e
  | .ok _ =>
    match waitOnEvent o.blocked with
    | some dir => .waits dir
    | none => .breaks

/-! ## The session -/

/-- Where the code is. -/
inductive NegotiatePc where
  | outside
  | calling
  | waiting (dir : Direction)
deriving DecidableEq, Repr

/-- `calls` is a history variable: the calls of `s2n_negotiate`, and what the loop made of them. -/
structure S2nSession where
  negotiated : Bool := false
  errno : Errno := 0
  pc : NegotiatePc := .outside
  calls : List (NegotiateOutcome × Reaction) := []

inductive S2nAct where
  | checkNegotiate
  | negotiate (o : NegotiateOutcome)
  /-- `wait_for_read` or `wait_for_write` returns. -/
  | wakeUp
  /-- The same throws: `Yield_From_Main`, or the `OS_Error` of a `kqueue_poller`. -/
  | waitThrows
  /-- Something else of this thread leaves its `errno`. -/
  | setErrno (e : Errno)

namespace S2nSession

/-- `_negotiated = true` comes after the `break`. -/
def react (w : S2nSession) (o : NegotiateOutcome) (r : Reaction) : S2nSession :=
  { w with
    negotiated := w.negotiated || r == .breaks
    errno := o.errnoAfter w.errno
    pc :=
      match r with
      | .waits dir => .waiting dir
      | .raises _ | .breaks => .outside
    calls := w.calls ++ [(o, r)] }

def step (w : S2nSession) : S2nAct → Option S2nSession
  | .checkNegotiate =>
    match w.pc with
    | .outside => some (if w.negotiated then w else { w with pc := .calling })
    | _ => none
  | .negotiate o =>
    match w.pc with
    | .calling => some (w.react o (negotiateRound w.errno o))
    | _ => none
  | .wakeUp =>
    match w.pc with
    | .waiting _ => some { w with pc := .calling }
    | _ => none
  | .waitThrows =>
    match w.pc with
    | .waiting _ => some { w with pc := .outside }
    | _ => none
  | .setErrno e =>
    -- nothing else runs between the start of a round and its call
    match w.pc with
    | .calling => none
    | _ => some { w with errno := e }

def Runs (acts : List S2nAct) (w : S2nSession) : Prop := Run (ofFun step) ({} : S2nSession) acts w

/-- The session counts as negotiated only if the last call was a success, and every failure of the
    protocol has raised. -/
structure Sound (w : S2nSession) : Prop where
  negotiated : w.negotiated = true → ∃ earlier r, w.calls = earlier ++ [(.success, r)]
  raised : ∀ r blocked errno reaction, (.failure r blocked errno, reaction) ∈ w.calls →
    reaction = .raises ⟨"s2n_negotiate"⟩

/-- The two ways a call can mislead the loop are left out: `errno` still says `EWOULDBLOCK` when the
    protocol fails, and a call that would block stores `S2N_NOT_BLOCKED`. -/
def Plain (w : S2nSession) : S2nAct → Prop
  | .negotiate (.wouldBlock _ blocked) => blocked ≠ .notBlocked
  | .negotiate (.failure _ _ none) => w.errno ≠ ewouldblock
  | _ => True

end S2nSession

/-- What has to be made of a call. -/
def Reaction.Fits (r : Reaction) : NegotiateOutcome → Prop
  | .success => True
  | .wouldBlock _ _ => r ≠ .breaks
  | .failure _ _ _ => r = .raises ⟨"s2n_negotiate"⟩

theorem check_negative {errno : Errno} {fn : String} {r : Int} (h : r < 0) :
    check errno fn r = if errno = ewouldblock then .ok 0 else .error ⟨fn⟩ :=
  if_pos h

theorem round_would_block (errno : Errno) (r : { r : Int // r < 0 }) (blocked : BlockedStatus) :
    negotiateRound errno (.wouldBlock r blocked) =
      match waitOnEvent blocked with
      | some dir => .waits dir
      | none => .breaks := by
  simp only [negotiateRound, NegotiateOutcome.errnoAfter, NegotiateOutcome.result,
    NegotiateOutcome.blocked, check_negative r.property, if_true]

theorem round_failure {errno : Errno} {o : NegotiateOutcome} (hresult : o.result < 0)
    (herrno : o.errnoAfter errno ≠ ewouldblock) :
    negotiateRound errno o = .raises ⟨"s2n_negotiate"⟩ := by
  simp only [negotiateRound, check_negative hresult, if_neg herrno]

-- `_check` takes it for a call that would block.
theorem round_sticky {errno : Errno} {o : NegotiateOutcome} (hresult : o.result < 0)
    (herrno : o.errnoAfter errno = ewouldblock) (e : S2nError) :
    negotiateRound errno o ≠ .raises e := by
  simp only [negotiateRound, check_negative hresult, if_pos herrno]
  split <;> simp

namespace S2nSession

variable {w w' : S2nSession} {a : S2nAct} {o : NegotiateOutcome} {r : Reaction}

theorem round_fits_iff (w : S2nSession) (o : NegotiateOutcome) :
    (negotiateRound w.errno o).Fits o ↔ w.Plain (.negotiate o) := by
  cases o with
  | success => exact Iff.rfl
  | wouldBlock r blocked =>
    show negotiateRound w.errno (.wouldBlock r blocked) ≠ .breaks ↔ blocked ≠ .notBlocked
    rw [round_would_block]
    cases blocked <;> simp [waitOnEvent]
  | failure r blocked errno =>
    show negotiateRound w.errno (.failure r blocked errno) = .raises ⟨"s2n_negotiate"⟩ ↔ _
    cases errno with
    | none =>
      constructor
      · intro hraises hsticky
        exact round_sticky (o := .failure r blocked none) r.property hsticky _ hraises
      · intro hplain
        exact round_failure r.property hplain
    | some e =>
      have hraises : negotiateRound w.errno (.failure r blocked (some e)) = .raises ⟨"s2n_negotiate"⟩ :=
        round_failure r.property e.property
      exact iff_of_true hraises trivial

/-- Besides, a session that is negotiated is not in the loop. -/
structure Kept (w : S2nSession) : Prop extends Sound w where
  outside : w.negotiated = true → w.pc = .outside

theorem react_kept (h : w.Kept) (hpc : w.pc = .calling) (hfits : r.Fits o) :
    (w.react o r).Kept := by
  have hnot : w.negotiated = false := by
    by_contra hneg
    have hout := h.outside (by simpa using hneg)
    rw [hpc] at hout
    cases hout
  have hbreaks : (w.react o r).negotiated = true → r = .breaks := by
    simp [react, hnot]
  refine ⟨⟨fun hneg => ?_, fun n blocked errno reaction hmem => ?_⟩, fun hneg => ?_⟩
  · obtain rfl := hbreaks hneg
    cases o with
    | success => exact ⟨w.calls, .breaks, rfl⟩
    | wouldBlock n blocked => exact absurd rfl hfits
    | failure n blocked errno => cases hfits
  · rcases List.mem_append.mp hmem with hold | hnew
    · exact h.raised n blocked errno reaction hold
    · obtain ⟨rfl, rfl⟩ := Prod.mk.inj (List.mem_singleton.mp hnew)
      exact hfits
  · rw [hbreaks hneg]
    rfl

theorem react_fits (h : (w.react o r).Sound) : r.Fits o := by
  cases o with
  | success => trivial
  | wouldBlock n blocked =>
    rintro rfl
    obtain ⟨earlier, r, hcalls⟩ := h.negotiated (by simp [react])
    have hlast := (List.append_inj' hcalls rfl).2
    cases hlast
  | failure n blocked errno =>
    exact h.raised n blocked errno r (List.mem_append_right _ (.head _))

-- A step reacts to a call, or leaves `_negotiated` and the calls made as they are and does not go
-- into the loop of a session that is negotiated.
theorem step_cases (hstep : w.step a = some w') :
    (∃ o, a = .negotiate o ∧ w.pc = .calling ∧ w' = w.react o (negotiateRound w.errno o)) ∨
      (w.Plain a ∧ w'.negotiated = w.negotiated ∧ w'.calls = w.calls ∧
        (w.negotiated = true → w.pc = .outside → w'.pc = .outside)) := by
  cases a with
  | checkNegotiate =>
    simp only [step] at hstep
    split at hstep
    · obtain rfl := Option.some.inj hstep
      apply Or.inr
      split
      · exact ⟨trivial, rfl, rfl, fun _ hpc => hpc⟩
      · rename_i hneg
        exact ⟨trivial, rfl, rfl, fun hneg' => absurd hneg' hneg⟩
    · cases hstep
  | negotiate o =>
    simp only [step] at hstep
    split at hstep
    · rename_i hpc
      exact .inl ⟨o, rfl, hpc, (Option.some.inj hstep).symm⟩
    · cases hstep
  | wakeUp =>
    simp only [step] at hstep
    split at hstep
    · rename_i dir hpc
      obtain rfl := Option.some.inj hstep
      refine .inr ⟨trivial, rfl, rfl, fun _ hout => ?_⟩
      cases hpc.symm.trans hout
    · cases hstep
  | waitThrows =>
    simp only [step] at hstep
    split at hstep
    · obtain rfl := Option.some.inj hstep
      exact .inr ⟨trivial, rfl, rfl, fun _ _ => rfl⟩
    · cases hstep
  | setErrno e =>
    simp only [step] at hstep
    split at hstep
    · cases hstep
    · obtain rfl := Option.some.inj hstep
      exact .inr ⟨trivial, rfl, rfl, fun _ hpc => hpc⟩

theorem step_kept (h : w.Kept) (hstep : w.step a = some w') (hplain : w.Plain a) : w'.Kept := by
  rcases step_cases hstep with ⟨o, rfl, hpc, rfl⟩ | ⟨-, hneg, hcalls, hout⟩
  · exact react_kept h hpc ((round_fits_iff w o).mpr hplain)
  · refine ⟨⟨?_, ?_⟩, ?_⟩
    · rw [hneg, hcalls]
      exact h.negotiated
    · rw [hcalls]
      exact h.raised
    · intro hneg'
      rw [hneg] at hneg'
      exact hout hneg' (h.outside hneg')

theorem step_misled (hstep : w.step a = some w') (hmisled : ¬w.Plain a) : ¬w'.Sound := by
  intro hsound
  rcases step_cases hstep with ⟨o, rfl, -, rfl⟩ | ⟨hplain, -⟩
  · exact hmisled ((round_fits_iff w o).mp (react_fits hsound))
  · exact hmisled hplain

/-- In every run the session is sound throughout if and only if no failure of the protocol leaves
    `EWOULDBLOCK` in `errno` and no call that would block stores `S2N_NOT_BLOCKED`. -/
theorem negotiated_iff (acts : List S2nAct) :
    (∀ pre w, pre <+: acts → Runs pre w → w.Sound) ↔
      ∀ pre a w w', pre ++ [a] <+: acts → Runs pre w → w.step a = some w' → w.Plain a := by
  apply Run.always_iff (I := Kept) (fun _ h => h.toSound) ?_ ?_ ?_ acts
  · exact fun _ _ _ h hstep hplain => step_kept h hstep hplain
  · exact fun _ _ _ _ hstep hmisled => step_misled hstep hmisled
  · refine ⟨⟨?_, fun _ _ _ _ hmem => absurd hmem List.not_mem_nil⟩, fun _ => rfl⟩
    intro hneg
    cases hneg

/-- The first call would block, the second one fails and leaves `errno` alone. -/
def failsAfterWait : List S2nAct :=
  [.checkNegotiate, .negotiate (.wouldBlock ⟨-1, by decide⟩ .blockedOnRead), .wakeUp,
    .negotiate (.failure ⟨-1, by decide⟩ .notBlocked none)]

theorem failure_negotiated :
    ∃ w, Runs failsAfterWait w ∧ w.negotiated = true ∧ ¬w.Sound := by
  refine ⟨_, run_of_exec rfl, rfl, fun h => ?_⟩
  cases h.raised ⟨-1, by decide⟩ .notBlocked none .breaks (by decide)

end S2nSession

end Coropp
