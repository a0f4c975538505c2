import Coropp.Lines
import Coropp.SmtpEnd

/-!
# SMTP dialogues

A client sends one command after the other, without waiting for the replies, and QUIT last; a DATA
command is followed by the lines of its message and a line of a single dot.  All of it is one stream,
of which `go` has to find the commands again.
-/

namespace Coropp

open Loops Source Transition

/-! ## Messages -/

/-- Lines as they are sent. -/
def textOf (lines : List Bytes) : Bytes := lines.flatMap (· ++ crlf.val)

/-- The line after a message. -/
def dotLine : Bytes := 46 :: crlf.val

/-- The number of empty lines that a message ends with. -/
def blankEnd (message : List Bytes) : Nat := (message.reverse.takeWhile (· = [])).length

/-- A message whose end `get` finds: one with a line that is not empty ends with an even number of empty
    ones, and one of empty lines alone has an odd number of them. -/
def EndFound (message : List Bytes) : Prop :=
  blankEnd message % 2 = if blankEnd message = message.length then 1 else 0

instance (message : List Bytes) : Decidable (EndFound message) :=
  inferInstanceAs (Decidable (_ = _))

theorem textOf_snoc (message : List Bytes) (l : Bytes) :
    textOf (message ++ [l]) = textOf message ++ (l ++ crlf.val) := by
  rw [textOf, List.flatMap_append, List.flatMap_singleton]
  rfl

theorem blankEnd_snoc (message : List Bytes) (l : Bytes) :
    blankEnd (message ++ [l]) = if l = [] then blankEnd message + 1 else 0 := by
  rw [blankEnd, List.reverse_append, List.reverse_singleton, List.singleton_append,
    List.takeWhile_cons]
  split
  · rename_i hl
    rw [if_pos (of_decide_eq_true hl)]
    rfl
  · rename_i hl
    rw [if_neg (of_decide_eq_false (Bool.not_eq_true _ ▸ hl))]
    rfl

-- An empty line takes back what the CR and LF before it are a part of.
theorem endFound_snoc (message : List Bytes) (l : Bytes) :
    EndFound (message ++ [l]) ↔ (l = [] → ¬EndFound message) := by
  unfold EndFound
  rw [blankEnd_snoc, List.length_append, List.length_singleton]
  by_cases hl : l = []
  · rw [if_pos hl, imp_iff_right hl]
    split_ifs <;> omega
  · rw [if_neg hl, if_neg (by omega)]
    exact iff_of_true rfl fun h => absurd h hl

/-! ## The scan for the end of a message -/

theorem scan_line {l : Bytes} (h : 13 ∉ l) (i : Nat) :
    scan endOfData.val ⟨0, by decide⟩ i (l ++ crlf.val) = .passed ⟨2, by decide⟩ :=
  (scan_attempts (attempts_of_not_mem endOfData.property h) endOfData.property i crlf.val).trans rfl

-- A line after a CR and LF: its first byte ends their attempt, or its second one if that is a dot.
theorem scan_next_line {l : Bytes} (h : 13 ∉ l) (hdot : l ≠ [46]) (i : Nat) :
    scan endOfData.val ⟨2, by decide⟩ i (l ++ crlf.val) =
      .passed (if l = [] then ⟨0, by decide⟩ else ⟨2, by decide⟩) := by
  cases l with
  | nil => rfl
  | cons x l =>
    have hl := List.not_mem_of_not_mem_cons h
    rw [if_neg (List.cons_ne_nil x l), List.cons_append, scan_cons]
    by_cases hx : x = 46
    · subst hx
      cases l with
      | nil => exact absurd rfl hdot
      | cons y l =>
        have hy : y ≠ 13 := (List.ne_of_not_mem_cons hl).symm
        rw [if_pos (by rfl), dif_pos (by decide), List.cons_append, scan_cons]
        exact (if_neg hy).trans (scan_line (List.not_mem_of_not_mem_cons hl) _)
    · exact (if_neg hx).trans (scan_line hl _)

/-- No line holds a CR, and none is a dot: one that begins with a dot is sent with another. -/
def Message (message : List Bytes) : Prop := ∀ l ∈ message, 13 ∉ l ∧ l ≠ [46]

instance (message : List Bytes) : Decidable (Message message) :=
  inferInstanceAs (Decidable (∀ l ∈ message, _))

-- The induction is on the lines from the last one on: a CR and LF have been matched, or nothing.
theorem scan_text {message : List Bytes} (h : Message message) :
    scan endOfData.val (Delim.start endOfData) 0 (textOf message) =
      .passed (if EndFound message then ⟨2, by decide⟩ else ⟨0, by decide⟩) := by
  induction message using List.reverseRecOn with
  | nil => rfl
  | append_singleton message l ih =>
    rcases h l (List.mem_append_right _ (.head _)) with ⟨hcr, hdot⟩
    rw [textOf_snoc, scan_append, ih fun l hl => h l (List.mem_append_left _ hl), Scan.goOn]
    by_cases hfound : EndFound message
    · rw [if_pos hfound, scan_next_line hcr hdot]
      simp only [endFound_snoc, hfound, not_true, imp_false]
      split_ifs <;> rfl
    · rw [if_neg hfound, scan_line hcr]
      simp only [endFound_snoc, hfound, not_false_iff, implies_true, if_true]

-- The message and its end are what `get` takes, where it finds the end.
theorem getCut_message {message : List Bytes} (h : Message message) (hfound : EndFound message)
    (ys : Bytes) :
    getCut endOfData.val (Delim.start endOfData) (textOf message ++ (dotLine ++ ys)) =
      ⟨false, textOf message ++ dotLine, ys⟩ := by
  have hscan := scan_text h
  rw [if_pos hfound] at hscan
  rw [getCut_append_passed hscan, getCut_found (i := 2) rfl]
  rfl

theorem getCut_taken {delim ys : Bytes} (matched : Fin delim.length) (hys : ys ≠ []) :
    (getCut delim matched ys).taken ≠ [] := by
  unfold getCut
  split
  · intro htake
    rcases List.take_eq_nil_iff.mp htake with hzero | hnil
    · omega
    · exact hys hnil
  · exact hys

-- Otherwise it takes more than that, if there is more.
theorem getCut_past {message : List Bytes} (h : Message message) (hnot : ¬EndFound message)
    {ys : Bytes} (hys : ys ≠ []) :
    (getCut endOfData.val (Delim.start endOfData) (textOf message ++ (dotLine ++ ys))).taken ≠
      textOf message ++ dotLine := by
  have hscan := scan_text h
  have hdot : scan endOfData.val ⟨0, by decide⟩ 0 dotLine = .passed ⟨2, by decide⟩ := rfl
  rw [if_neg hnot] at hscan
  rw [getCut_append_passed hscan, getCut_append_passed hdot]
  intro heq
  have hmore : dotLine ++ (getCut endOfData.val ⟨2, by decide⟩ ys).taken = dotLine :=
    List.append_cancel_left heq
  exact getCut_taken _ hys (List.append_right_eq_self.mp hmore)

/-! ## Commands -/

/-- A command as a client sends it, and its message where it is DATA. -/
structure Request where
  line : Bytes
  message : List Bytes := []
  line_cr : 13 ∉ line
  short : line.length + 2 ≤ maxSize
  message_text : Message message

namespace Request

def verb (r : Request) : Verb := .ofLine (r.line ++ crlf.val)

/-- What is sent after the line. -/
def follows (r : Request) : Bytes := if r.verb = .data then textOf r.message ++ dotLine else []

def sent (r : Request) : Bytes := r.line ++ crlf.val ++ r.follows

/-- What is to come of it. -/
def exchange (r : Request) (envFrom : Bytes) : Exchange :=
  let line := r.line ++ crlf.val
  let a := respond line envFrom r.verb
  if r.verb = .data then ⟨line, [.startMail, .ok], textOf r.message ++ dotLine, envFrom, []⟩
  else ⟨line, [a.1], [], envFrom, a.2⟩

/-- The session finds the end of its message, where there is one. -/
def Framed (r : Request) : Prop := r.verb = .data → EndFound r.message

variable (r : Request) (ys envFrom : Bytes)

theorem lineCut : getCut crlf.val (Delim.start crlf) (r.sent ++ ys) =
    ⟨false, r.line ++ crlf.val, r.follows ++ ys⟩ := by
  rw [sent, List.append_assoc]
  exact getCut_attempts crlf (attempts_of_not_mem crlf.property r.line_cr) (r.follows ++ ys)

theorem lineOf_sent : lineOf (r.sent ++ ys) = r.line ++ crlf.val := by
  rw [lineOf, lineCut]

theorem verb_sent : Verb.ofLine (lineOf (r.sent ++ ys)) = r.verb := by
  rw [lineOf_sent]
  rfl

theorem messageCut_sent (h : r.verb = .data) : messageCut (r.sent ++ ys) =
    getCut endOfData.val (Delim.start endOfData) (textOf r.message ++ (dotLine ++ ys)) := by
  rw [messageCut, afterLine, lineCut, follows, if_pos h, List.append_assoc]

variable {r ys}

theorem afterCommand_sent (h : r.Framed) : afterCommand (r.sent ++ ys) = ys := by
  rw [afterCommand, verb_sent]
  by_cases hdata : r.verb = .data
  · rw [if_pos hdata, messageCut_sent r ys hdata, getCut_message r.message_text (h hdata)]
  · rw [if_neg hdata, afterLine, lineCut, follows, if_neg hdata, List.nil_append]

-- A command comes out as it was sent.
theorem exchangeOf_sent (h : r.Framed) :
    exchangeOf (r.sent ++ ys) envFrom = r.exchange envFrom := by
  unfold exchange
  by_cases hdata : r.verb = .data
  · rw [exchangeOf_data ((verb_sent r ys).trans hdata), if_pos hdata, lineOf_sent,
      messageCut_sent r ys hdata, getCut_message r.message_text (h hdata)]
  · have hother : ¬Verb.ofLine (lineOf (r.sent ++ ys)) = .data := by rwa [verb_sent]
    rw [exchangeOf_other hother, if_neg hdata, lineOf_sent]
    rfl

-- It does not if the end of its message is missed, and more is to come.
theorem framed_of_exchangeOf (hys : ys ≠ [])
    (h : exchangeOf (r.sent ++ ys) envFrom = r.exchange envFrom) : r.Framed := by
  intro hdata
  by_contra hnot
  have hbody := congrArg Exchange.body h
  rw [exchangeOf_data ((verb_sent r ys).trans hdata), messageCut_sent r ys hdata, exchange,
    if_pos hdata] at hbody
  exact getCut_past r.message_text hnot hys hbody

end Request

/-- The commands one by one, each with the `_env_from` that those before it have left. -/
def transcript : List Request → Bytes → List Exchange
  | [], _ => []
  | r :: rs, envFrom => r.exchange envFrom :: transcript rs (r.exchange envFrom).envAfter

/-- What a client has to say, up to its QUIT. -/
structure Dialogue where
  requests : List Request
  quit : Request
  goes_on : ∀ r ∈ requests, r.verb ≠ .quit
  quits : quit.verb = .quit

namespace Dialogue

def sent (d : Dialogue) : Bytes := d.requests.flatMap Request.sent ++ d.quit.sent

def exchanges (d : Dialogue) : List Exchange := transcript (d.requests ++ [d.quit]) []

end Dialogue

namespace Session

variable {F : Type} [StreamFile F] {st st' : Session F} {r : Request} {rs : List Request}
  {ys after : Bytes}

theorem yields_request (hend : st.ended = none) (hcalm : Calm st.b)
    (hrest : rest st.b = r.sent ++ ys) :
    ∃ st₁, Yields (goRound · st) st₁ ∧ Answers st st₁ ∧ Calm st₁.b ∧
      st₁.ended = if r.verb = .quit then some .returned else none := by
  rcases goRound_yields hcalm with ⟨st₁, n, hn⟩
  have hshort : ¬maxSize < (lineOf (rest st.b)).length := by
    have hle := r.short
    rw [hrest, Request.lineOf_sent, List.length_append]
    exact Nat.not_lt_of_le hle
  rcases goRound_spec hend (hn n (Nat.le_refl n)) with ⟨hcalm₁, hanswers | hstops⟩
  · refine ⟨st₁, ⟨n, hn⟩, hanswers, hcalm₁ hcalm, ?_⟩
    rw [hanswers.ended, hrest, Request.verb_sent]
  · exact absurd (hstops.reason hcalm) hshort

theorem answers_request (hanswers : Answers st st') (hrest : rest st.b = r.sent ++ ys)
    (h : exchangeOf (r.sent ++ ys) st.envFrom = r.exchange st.envFrom) :
    st'.exchanges = st.exchanges ++ [r.exchange st.envFrom] ∧
      st'.envFrom = (r.exchange st.envFrom).envAfter := by
  rw [hanswers.exchanges, hanswers.envFrom, hrest, h]
  exact ⟨rfl, rfl⟩

-- The induction is on the commands: each is answered, and leaves what comes after it.
theorem yields_requests {last : Request} (hquit : last.verb = .quit)
    (hgo : ∀ r ∈ rs, r.verb ≠ .quit) (hframed : ∀ r ∈ rs, r.Framed) (hend : st.ended = none)
    (hcalm : Calm st.b) (hrest : rest st.b = rs.flatMap Request.sent ++ (last.sent ++ after)) :
    ∃ st', Yields (runNested goBody · st) st' ∧
      st'.exchanges = st.exchanges ++ transcript (rs ++ [last]) st.envFrom ∧
      st'.ended = some .returned ∧ rest st'.b = after := by
  induction rs generalizing st with
  | nil =>
    have hlast : last.Framed := fun hdata => by cases hquit.symm.trans hdata
    rcases yields_request hend hcalm hrest with ⟨st₁, hround, hanswers, -, hended⟩
    have hbody := goBody_yields hround
    rw [if_pos hquit] at hended
    rw [if_neg (by simp [hended])] at hbody
    refine ⟨st₁, nested_last hbody, ?_, hended, ?_⟩
    · exact (answers_request hanswers hrest (Request.exchangeOf_sent _ hlast)).1
    · rw [hanswers.left, hrest]
      exact Request.afterCommand_sent hlast
  | cons r rs ih =>
    rcases List.forall_mem_cons.mp hgo with ⟨hr, hgo⟩
    rcases List.forall_mem_cons.mp hframed with ⟨hfound, hframed⟩
    rw [List.flatMap_cons, List.append_assoc] at hrest
    rcases yields_request hend hcalm hrest with ⟨st₁, hround, hanswers, hcalm₁, hended⟩
    have hbody := goBody_yields hround
    rw [if_neg hr] at hended
    rw [if_pos (by simp [hended])] at hbody
    have hleft := hanswers.left
    rw [hrest, Request.afterCommand_sent hfound] at hleft
    rcases answers_request hanswers hrest (Request.exchangeOf_sent _ hfound) with ⟨hnew, henv⟩
    rcases ih hgo hframed hended hcalm₁ hleft with ⟨st', hy, hexchanges, hreturned, hafter⟩
    refine ⟨st', nested_round hbody hy, ?_, hreturned, hafter⟩
    rw [hexchanges, hnew, henv, List.append_assoc]
    rfl

/-! ## Messages whose end is missed -/

theorem exchanges_grow (hend : st.ended = none) {fuel : Nat}
    (h : runNested goBody fuel st = some st') : st.exchanges <+: st'.exchanges := by
  apply nested_keeps (I := fun t : Session F => t.ended = none ∧ st.exchanges <+: t.exchanges)
    (P := fun t => st.exchanges <+: t.exchanges) ?_ ⟨hend, List.prefix_rfl⟩ h
  rintro fuel t next ⟨ht, hpre⟩ hbody
  rcases Option.map_eq_some_iff.mp hbody with ⟨u, hround, rfl⟩
  have hu : st.exchanges <+: u.exchanges := by
    rcases goRound_spec ht hround with ⟨-, hanswers | hstops⟩
    · rw [hanswers.exchanges]
      exact hpre.trans (List.prefix_append _ _)
    · rcases hstops.exchanges with hsame | ⟨x, -, -, hnext⟩
      · rw [hsame]
        exact hpre
      · rw [hnext]
        exact hpre.trans (List.prefix_append _ _)
  split
  · rename_i hnone
    exact ⟨by simpa using hnone, hu⟩
  · exact hu

theorem sent_ne_nil (r : Request) (ys : Bytes) : r.sent ++ ys ≠ [] := by
  unfold Request.sent crlf
  simp

-- The first message whose end is missed does not come out as it was sent.
theorem framed_of_yields {last : Request} (hgo : ∀ r ∈ rs, r.verb ≠ .quit) (hend : st.ended = none)
    (hcalm : Calm st.b) (hrest : rest st.b = rs.flatMap Request.sent ++ (last.sent ++ after))
    (hy : Yields (runNested goBody · st) st')
    (h : st'.exchanges = st.exchanges ++ transcript (rs ++ [last]) st.envFrom) :
    ∀ r ∈ rs, r.Framed := by
  induction rs generalizing st with
  | nil => exact fun _ hr => absurd hr List.not_mem_nil
  | cons r rs ih =>
    rcases List.forall_mem_cons.mp hgo with ⟨hr, hgo⟩
    rw [List.flatMap_cons, List.append_assoc] at hrest
    rcases yields_request hend hcalm hrest with ⟨st₁, hround, hanswers, hcalm₁, hended⟩
    have hbody := goBody_yields hround
    rw [if_neg hr] at hended
    rw [if_pos (by simp [hended])] at hbody
    have hy₁ := nested_rest hbody hy
    have hsame : exchangeOf (r.sent ++ (rs.flatMap Request.sent ++ (last.sent ++ after)))
        st.envFrom = r.exchange st.envFrom := by
      rcases hy₁ with ⟨n, hn⟩
      have hgrow := exchanges_grow hended (hn n (Nat.le_refl n))
      rw [hanswers.exchanges, hrest, h, List.prefix_append_right_inj] at hgrow
      exact (List.cons_prefix_cons.mp hgrow).1
    have hmore : rs.flatMap Request.sent ++ (last.sent ++ after) ≠ [] :=
      fun hnil => sent_ne_nil last after (List.append_eq_nil_iff.mp hnil).2
    have hfound := Request.framed_of_exchangeOf _ hmore hsame
    have hleft := hanswers.left
    rw [hrest, Request.afterCommand_sent hfound] at hleft
    rcases answers_request hanswers hrest hsame with ⟨hnew, henv⟩
    refine List.forall_mem_cons.mpr ⟨hfound, ih hgo hended hcalm₁ hleft hy₁ ?_⟩
    rw [h, hnew, henv, List.append_assoc]
    rfl

/-- `go` has answered the commands as they were sent, and left what comes after the QUIT. -/
structure Serves (d : Dialogue) (after : Bytes) (st : Session F) : Prop where
  exchanges : st.exchanges = d.exchanges
  returned : st.ended = some .returned
  left : rest st.b = after

/-- However it is read, a dialogue is answered as it was sent if and only if each of its messages with a
    line that is not empty ends with an even number of empty ones, and each of empty lines alone has an
    odd number of them. -/
theorem dialogue_served_iff (d : Dialogue) (after : Bytes) {script : List Answer}
    (h : ∀ e, .error e ∉ script) :
    (∃ st, Yields (go · (File.mk (d.sent ++ after) script)) st ∧ st.Serves d after) ↔
      ∀ r ∈ d.requests, r.verb = .data → EndFound r.message := by
  have hrest : rest (start (File.mk (d.sent ++ after) script)).b =
      d.requests.flatMap Request.sent ++ (d.quit.sent ++ after) :=
    List.append_assoc _ _ _
  constructor
  · rintro ⟨st, hy, hserves⟩
    exact framed_of_yields d.goes_on rfl h hrest hy hserves.exchanges
  · intro hframed
    have hserved : ∃ st, Yields (go · (File.mk (d.sent ++ after) script)) st ∧
        st.exchanges = d.exchanges ∧ st.ended = some .returned ∧ rest st.b = after :=
      yields_requests d.quits d.goes_on hframed rfl h hrest
    rcases hserved with ⟨st, hy, hexchanges, hreturned, hleft⟩
    exact ⟨st, hy, hexchanges, hreturned, hleft⟩

/-- `MAIL FROM:<al>`, DATA with the lines `hi` and `.`, whose dot is sent twice, and QUIT are served,
    with a wait in between; a message that ends with an empty line is not. -/
theorem dialogue_served_hi : ∃ d e : Dialogue,
    d.requests.map (fun r => (r.line, r.message)) =
      [(ascii ['M', 'A', 'I', 'L', ' ', 'F', 'R', 'O', 'M', ':', '<', 'a', 'l', '>'], []),
        (ascii ['D', 'A', 'T', 'A'], [ascii ['h', 'i'], ascii ['.', '.']])] ∧
      e.requests.map (fun r => (r.line, r.message)) =
        [(ascii ['D', 'A', 'T', 'A'], [ascii ['h', 'i'], []])] ∧
      (∃ st, Yields (go · (File.mk (d.sent ++ [33]) [.chunk 20 (by decide), .wouldBlock])) st ∧
        st.Serves d [33]) ∧
      ¬∃ st, Yields (go · (File.mk (e.sent ++ [33]) [])) st ∧ st.Serves e [33] := by
  let mail : Request :=
    ⟨ascii ['M', 'A', 'I', 'L', ' ', 'F', 'R', 'O', 'M', ':', '<', 'a', 'l', '>'], [], by decide,
      by decide, by decide⟩
  let data (message : List Bytes) (h : Message message) : Request :=
    ⟨ascii ['D', 'A', 'T', 'A'], message, by decide, by decide, h⟩
  let quit : Request := ⟨ascii ['q', 'u', 'i', 't'], [], by decide, by decide, by decide⟩
  let dots := data [ascii ['h', 'i'], ascii ['.', '.']] (by decide)
  let blank := data [ascii ['h', 'i'], []] (by decide)
  refine ⟨⟨[mail, dots], quit, by decide, rfl⟩, ⟨[blank], quit, by decide, rfl⟩, rfl, rfl, ?_, ?_⟩
  · apply (dialogue_served_iff _ _ (by simp)).mpr
    decide
  · rw [dialogue_served_iff _ _ (by simp)]
    decide

end Session

end Coropp
