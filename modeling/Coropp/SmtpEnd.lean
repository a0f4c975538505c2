import Coropp.Smtp

/-!
# When an SMTP session ends

At the end of the stream `get` returns at once with an empty line, which is answered and read again.
So a session ends with a QUIT command alone, and a message counts as received when the stream ends
in it.
-/

namespace Coropp

open Loops Source Transition

/-! ## Streams with a line that closes the session -/

/-- Among the commands of the stream is one that ends the session. -/
def Closes (xs : Bytes) : Prop := ∃ line, CommandLine xs line ∧ Closing line

theorem Closes.next {xs : Bytes} (h : Closes xs) (hgo : ¬Closing (lineOf xs)) :
    Closes (afterCommand xs) := by
  rcases h with ⟨line, hline, hclosing⟩
  cases hline with
  | here => exact absurd hclosing hgo
  | next _ h => exact ⟨line, h, hclosing⟩

theorem commandLine_nil {xs line : Bytes} (h : CommandLine xs line) (hxs : xs = []) : line = [] := by
  induction h with
  | here xs =>
    subst hxs
    rfl
  | next hgo h ih =>
    subst hxs
    exact ih rfl

-- At its end there is no such command any more.
theorem not_closes_nil : ¬Closes [] := by
  rintro ⟨line, hline, hclosing⟩
  obtain rfl := commandLine_nil hline rfl
  rcases hclosing with hquit | hlong
  · exact absurd hquit (by decide)
  · exact absurd hlong (by decide)

theorem getCut_closed {delim xs : Bytes} {matched : Fin delim.length}
    (h : (getCut delim matched xs).ret = true) : (getCut delim matched xs).rem = [] := by
  cases hscan : scan delim matched 0 xs with
  | found i =>
    rw [getCut_found hscan] at h
    cases h
  | passed m => rw [getCut_passed hscan]

-- Where a later command ends the session, the message of this one has come to its end.
theorem messageCut_ends {xs : Bytes} (hverb : Verb.ofLine (lineOf xs) = .data)
    (h : Closes (afterCommand xs)) : endOfData.val <:+: (messageCut xs).taken := by
  cases hret : (messageCut xs).ret with
  | false => exact (getCut_delim hret).isInfix
  | true =>
    rw [afterCommand, if_pos hverb, messageCut, getCut_closed hret] at h
    exact absurd h not_closes_nil

namespace Session

section

variable {F : Type} [CoroFile F]

/-- A DATA command is answered with 250 only after its message has come with its end. -/
def Received (st : Session F) : Prop :=
  ∀ x ∈ st.exchanges, x.verb = .data → x.Answered 250 → endOfData.val <:+: x.body

/-- `go` comes to an end, and all that has been acknowledged has been received. -/
def EndsWithStream (f : F) : Prop :=
  (∃ st, Yields (go · f) st) ∧ ∀ fuels st, Runs f fuels st → st.Received

end

variable {F : Type} [StreamFile F] {st st' : Session F} {fuel : Nat}

theorem round_closes (hend : st.ended = none) (h : goRound fuel st = some st')
    (hclosing : Closing (lineOf (rest st.b))) : st'.ended ≠ none := by
  rcases goRound_spec hend h with ⟨-, hanswers | hstops⟩
  · have hquit : Verb.ofLine (lineOf (rest st.b)) = .quit := hclosing.resolve_right hanswers.short
    rw [hanswers.ended, if_pos hquit]
    exact Option.some_ne_none _
  · exact hstops.ended

theorem round_goes_on (hend : st.ended = none) (hcalm : Calm st.b) (h : goRound fuel st = some st')
    (hgo : ¬Closing (lineOf (rest st.b))) : Answers st st' ∧ st'.ended = none ∧ Calm st'.b := by
  rcases goRound_spec hend h with ⟨hcalm', hanswers | hstops⟩
  · refine ⟨hanswers, ?_, hcalm' hcalm⟩
    rw [hanswers.ended, if_neg fun hquit => hgo (.inl hquit)]
  · exact absurd (.inr (hstops.reason hcalm)) hgo

/-! ## The end of `go` -/

theorem goBody_yields (h : Yields (goRound · st) st') :
    Yields (goBody · st) (if st'.ended.isNone then .inl st' else .inr st') :=
  h.map _

-- The induction is on the way to the line that closes the session.
theorem yields_of_commandLine {xs line : Bytes} (hline : CommandLine xs line)
    (hclosing : Closing line) (hend : st.ended = none) (hcalm : Calm st.b) (hxs : rest st.b = xs) :
    ∃ st', Yields (runNested goBody · st) st' := by
  induction hline generalizing st with
  | here xs =>
    rcases goRound_yields hcalm with ⟨st₁, hy⟩
    rcases hy with ⟨n, hn⟩
    have hended := round_closes hend (hn n (Nat.le_refl n)) (hxs ▸ hclosing)
    have hbody := goBody_yields ⟨n, hn⟩
    rw [if_neg (by simpa using hended)] at hbody
    exact ⟨st₁, nested_last hbody⟩
  | @next xs line hgo h ih =>
    rcases goRound_yields hcalm with ⟨st₁, hy⟩
    rcases hy with ⟨n, hn⟩
    rcases round_goes_on hend hcalm (hn n (Nat.le_refl n)) (hxs ▸ hgo) with
      ⟨hanswers, hend₁, hcalm₁⟩
    have hbody := goBody_yields ⟨n, hn⟩
    rw [if_pos (by simp [hend₁])] at hbody
    rcases ih hclosing hend₁ hcalm₁ (by rw [hanswers.left, hxs]) with ⟨st', hy'⟩
    exact ⟨st', nested_round hbody hy'⟩

theorem go_forever {f : F} (hcalm : Calm f) (h : ¬Closes (rest f)) (fuel : Nat) :
    go fuel f = none := by
  apply nested_forever (I := fun st : Session F =>
    st.ended = none ∧ Calm st.b ∧ ¬Closes (rest st.b)) ?_ ⟨rfl, hcalm, h⟩
  rintro fuel st t ⟨hend, hst, hnot⟩ hbody
  rcases Option.map_eq_some_iff.mp hbody with ⟨st', hround, rfl⟩
  have hgo : ¬Closing (lineOf (rest st.b)) := fun hclosing => hnot ⟨_, .here _, hclosing⟩
  rcases round_goes_on hend hst hround hgo with ⟨hanswers, hend', hcalm'⟩
  refine ⟨st', if_pos (by simp [hend']), hend', hcalm', ?_⟩
  rintro ⟨line, hline, hclosing⟩
  rw [hanswers.left] at hline
  exact hnot ⟨line, .next hgo hline, hclosing⟩

/-! ## Messages -/

/-- As long as the session goes on, the command that will end it is still to come. -/
structure Ahead (st : Session F) : Prop where
  received : st.Received
  calm : Calm st.b
  closes : st.ended = none → Closes (rest st.b)

omit [StreamFile F] in
theorem received_snoc (h : st.Received) {x : Exchange}
    (hx : x.verb = .data → x.Answered 250 → endOfData.val <:+: x.body)
    (hnext : st'.exchanges = st.exchanges ++ [x]) : st'.Received := by
  intro y hy hverb hok
  rw [hnext] at hy
  rcases List.mem_append.mp hy with hold | hnew
  · exact h y hold hverb hok
  · obtain rfl := List.mem_singleton.mp hnew
    exact hx hverb hok

theorem step_ahead (h : st.Ahead) (hstep : st.step fuel = some st') : st'.Ahead := by
  unfold step at hstep
  split at hstep
  · rename_i hnone
    have hend : st.ended = none := by simpa using hnone
    rcases goRound_spec hend hstep with ⟨hcalm, hanswers | hstops⟩
    · have hnext : st'.ended = none → Closes (afterCommand (rest st.b)) := by
        intro hend'
        apply (h.closes hend).next
        intro hclosing
        exact round_closes hend hstep hclosing hend'
      refine ⟨received_snoc h.received ?_ hanswers.exchanges, hcalm h.calm, fun hend' => ?_⟩
      · intro hverb _
        have hdata : Verb.ofLine (lineOf (rest st.b)) = .data := by
          rw [← hverb, exchangeOf_verb]
        have hend' : st'.ended = none := by
          rw [hanswers.ended, hdata]
          rfl
        rw [exchangeOf_data hdata]
        exact messageCut_ends hdata (hnext hend')
      · rw [hanswers.left]
        exact hnext hend'
    · refine ⟨?_, hcalm h.calm, fun hend' => absurd hend' hstops.ended⟩
      rcases hstops.exchanges with hsame | ⟨x, -, hreplies, hnext⟩
      · intro x hx
        rw [hsame] at hx
        exact h.received x hx
      · apply received_snoc h.received ?_ hnext
        rintro _ ⟨r, hr, hcode⟩
        rw [hreplies] at hr
        rw [List.mem_singleton.mp hr] at hcode
        cases hcode
  · cases hstep

/-- A session ends with its stream, and acknowledges what it has received alone, if and only if a line
    that ends it is among the command lines: what is between the CRLFs that `get` finds, outside the
    messages. -/
theorem session_ends_iff (stream : Bytes) {script : List Answer} (h : ∀ e, .error e ∉ script) :
    EndsWithStream (File.mk stream script) ↔ ∃ line, CommandLine stream line ∧ Closing line := by
  constructor
  · rintro ⟨⟨st, hy⟩, -⟩
    by_contra hnot
    exact not_yields (go_forever (f := File.mk stream script) h hnot) st hy
  · intro hcloses
    refine ⟨?_, fun fuels st run => ?_⟩
    · rcases hcloses with ⟨line, hline, hclosing⟩
      show ∃ st, Yields (runNested goBody · (start (File.mk stream script))) st
      exact yields_of_commandLine hline hclosing rfl h rfl
    · have hahead : st.Ahead := by
        apply Run.invariant (I := Ahead) (fun _ _ _ h hstep => step_ahead h hstep) run
        exact ⟨fun x hx => absurd hx List.not_mem_nil, h, fun _ => hcloses⟩
      exact hahead.received

/-- A stream of `quit`, in two reads. -/
theorem session_ends_quit :
    EndsWithStream (File.mk (ascii ['Q', 'u', 'i', 't', ' '] ++ crlf.val)
      [.chunk 5 (by decide), .wouldBlock]) := by
  apply (session_ends_iff _ (by simp)).mpr
  exact ⟨_, .here _, .inl (by decide)⟩

/-- A client that sends nothing, and one that sends `data` and a part of its message. -/
theorem session_outlives_stream :
    (∀ fuel, go fuel (File.mk [] []) = none) ∧
      (∃ st, Runs (File.mk (ascii ['d', 'a', 't', 'a'] ++ crlf.val ++ ascii ['h', 'i']) []) [3] st ∧
        ¬st.Received) ∧
      ¬EndsWithStream (File.mk [] []) := by
  have hnever : ∀ fuel, go fuel (File.mk [] []) = none :=
    go_forever (fun e => List.not_mem_nil) not_closes_nil
  refine ⟨hnever, ⟨_, run_of_exec rfl, fun hreceived => ?_⟩, ?_⟩
  · exact absurd (hreceived _ (.head _) rfl (by decide)) (by decide)
  · rintro ⟨⟨st, hy⟩, -⟩
    exact not_yields hnever st hy

end Session

end Coropp
