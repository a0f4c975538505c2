import Coropp.FirstMatch
import Mathlib.Tactic.SplitIfs
import Coropp.Lib.Transition

/-!
# The SMTP session of the demo server

`smtp_session::go`: command lines are read with `get`, answered, and a DATA command is followed by a
message.  `go` does not look at what `get` returns.
-/

namespace Coropp

open Loops Source Transition

/-! ## Strings -/

/-- The bytes of a string constant. -/
def ascii (text : List Char) : Bytes := text.map fun c => UInt8.ofNat c.toNat

/-- `s.find_first_of (chars)`. -/
def findFirstOf (chars : Bytes) : Bytes → Option Nat
  | [] => none
  | x :: s => if x ∈ chars then some 0 else (findFirstOf chars s).map (· + 1)

/-- `s.find_last_of (chars)`. -/
def findLastOf (chars : Bytes) : Bytes → Option Nat
  | [] => none
  | x :: s =>
    match findLastOf chars s with
    | some j => some (j + 1)
    | none => if x ∈ chars then some 0 else none

/-- `s.substr (pos, n)`, for a `pos` in `s` or at its end. -/
def substr (s : Bytes) (pos n : Nat) : Bytes := (s.drop pos).take n

/-- `tolower`, in the C locale. -/
def tolower (x : UInt8) : UInt8 := if 65 ≤ x ∧ x ≤ 90 then x + 32 else x

/-- What `split_first` stores in `result`, and what it returns. -/
def splitFirst (source delims : Bytes) : Bytes × Nat :=
  match findFirstOf delims source with
  | none => ([], 0)
  | some i => (substr source 0 i, i)

/-- `result` after `find_email_addr (result, line)`, and what it returns. -/
def findEmailAddr (result line : Bytes) : Bytes × Nat :=
  match findFirstOf [60] line, findLastOf [62] line with
  | some i, some j => (substr line (i + 1) (sizeSub j 1), sizeSub (sizeSub j i) 2)
  | _, _ => (result, 0)

/-! ## Commands -/

inductive Verb where
  | quit
  | rcpt
  | helo
  | ehlo
  | mail
  | data
  | rset
  | other
deriving DecidableEq, Repr

/-- The comparisons of `command`. -/
def Verb.of (command : Bytes) : Verb :=
  if command = ascii ['q', 'u', 'i', 't'] then .quit
  else if command = ascii ['r', 'c', 'p', 't'] then .rcpt
  else if command = ascii ['h', 'e', 'l', 'o'] then .helo
  else if command = ascii ['e', 'h', 'l', 'o'] then .ehlo
  else if command = ascii ['m', 'a', 'i', 'l'] then .mail
  else if command = ascii ['d', 'a', 't', 'a'] then .data
  else if command = ascii ['r', 's', 'e', 't'] then .rset
  else .other

/-- The command of a line: what is before the first space, tab, CR or LF, in lower case. -/
def Verb.ofLine (line : Bytes) : Verb := .of ((splitFirst line [32, 9, 13, 10]).1.map tolower)

inductive Reply where
  | greeting
  | bye
  | ok
  | syntaxError
  | mailFirst
  | helo
  | ehlo
  | startMail
  | notImplemented
deriving DecidableEq, Repr

/-- The number of a reply. -/
def Reply.code : Reply → Nat
  | greeting | ok | helo | ehlo => 250
  | bye => 221
  | syntaxError => 501
  | mailFirst => 503
  | startMail => 354
  | notImplemented => 502

/-- What `send_reply` is given. -/
def Reply.text (hostname : String) : Reply → String
  | greeting => "250 " ++ hostname ++ " SMTP"
  | bye => "221 bye."
  | ok => "250 Ok"
  | syntaxError => "501 Syntax Error"
  | mailFirst => "503 send MAIL command first"
  | helo => "250 " ++ hostname
  | ehlo => "250-" ++ hostname ++ "\r\n250-PIPELINING\r\n250 8BITMIME"
  | startMail => "354 Ok"
  | notImplemented => "502 command not implemented"

-- Every text begins with its number.
theorem Reply.text_code (hostname : String) (r : Reply) :
    ∃ text, r.text hostname = toString r.code ++ text := by
  have hspace : ∀ code text : String, code ++ " " ++ text = code ++ (" " ++ text) :=
    fun code text => String.append_assoc
  cases r with
  | greeting => exact ⟨" " ++ hostname ++ " SMTP", by rw [← String.append_assoc, ← hspace]; rfl⟩
  | helo => exact ⟨" " ++ hostname, hspace "250" hostname⟩
  | ehlo =>
    refine ⟨"-" ++ hostname ++ "\r\n250-PIPELINING\r\n250 8BITMIME", ?_⟩
    rw [← String.append_assoc, ← String.append_assoc]
    rfl
  | bye => exact ⟨" bye.", rfl⟩
  | ok => exact ⟨" Ok", rfl⟩
  | syntaxError => exact ⟨" Syntax Error", rfl⟩
  | mailFirst => exact ⟨" send MAIL command first", rfl⟩
  | startMail => exact ⟨" Ok", rfl⟩
  | notImplemented => exact ⟨" command not implemented", rfl⟩

/-- The reply to a command, and `_env_from` after it; a DATA command goes on from there. -/
def respond (line envFrom : Bytes) : Verb → Reply × Bytes
  | .quit => (.bye, envFrom)
  | .rcpt =>
    if envFrom.length > 0 then
      if (findEmailAddr [] line).2 > 0 then (.ok, envFrom) else (.syntaxError, envFrom)
    else (.mailFirst, envFrom)
  | .helo => (.helo, envFrom)
  | .ehlo => (.ehlo, envFrom)
  | .mail =>
    -- _env_from is the result string itself
    let r := findEmailAddr envFrom line
    if r.2 > 0 then (.ok, r.1) else (.syntaxError, r.1)
  | .data => (.startMail, envFrom)
  | .rset => (.ok, [])
  | .other => (.notImplemented, envFrom)

/-! ## The session -/

/-- A command and what came of it; `body` is what has been read after a DATA command. -/
structure Exchange where
  line : Bytes
  replies : List Reply
  body : Bytes := []
  envBefore : Bytes
  envAfter : Bytes
deriving DecidableEq, Repr

def Exchange.verb (x : Exchange) : Verb := .ofLine x.line

/-- One of the replies has this number. -/
def Exchange.Answered (x : Exchange) (code : Nat) : Prop := ∃ r ∈ x.replies, r.code = code

instance (x : Exchange) (code : Nat) : Decidable (x.Answered code) :=
  inferInstanceAs (Decidable (∃ r ∈ x.replies, r.code = code))

/-- How `go` ends. -/
inductive SessionEnd where
  | returned
  | threw (e : ReadError)
deriving DecidableEq, Repr

/-- `exchanges` is a history variable. -/
structure Session (F : Type) where
  b : CoroBuffer F
  envFrom : Bytes := []
  exchanges : List Exchange := []
  ended : Option SessionEnd := none

def endOfData : Delim := ⟨[13, 10, 46, 13, 10], by decide⟩

namespace Session

variable {F : Type} [CoroFile F]

/-- `go` after its greeting. -/
def start (f : F) : Session F := { b := .create f }

/-- All that has been sent. -/
def replies (st : Session F) : List Reply := .greeting :: st.exchanges.flatMap Exchange.replies

def sent (hostname : String) (st : Session F) : List String :=
  st.replies.map fun r => r.text hostname ++ "\r\n"

/-- A command that is answered from its line alone. -/
def answer (st : Session F) (b : CoroBuffer F) (line : Bytes) : Session F :=
  let r := respond line st.envFrom (.ofLine line)
  { b := b
    envFrom := r.2
    exchanges := st.exchanges ++ [⟨line, [r.1], [], st.envFrom, r.2⟩]
    ended := if Verb.ofLine line = .quit then some .returned else none }

/-- The message after a DATA command has been read. -/
def accept (st : Session F) (line : Bytes) (r : Ended UInt8 ReadError (CoroBuffer F) Bool) : Session F :=
  match r.ret with
  | .error e =>
    { st with
      b := r.left
      exchanges := st.exchanges ++ [⟨line, [.startMail], r.bytes, st.envFrom, st.envFrom⟩]
      ended := some (.threw e) }
  | .ok _ =>
    { st with
      b := r.left
      envFrom := []
      exchanges := st.exchanges ++ [⟨line, [.startMail, .ok], r.bytes, st.envFrom, []⟩] }

/-- One turn of `while (1)`. -/
def goRound (fuel : Nat) (st : Session F) : Option (Session F) :=
  (st.b.get crlf fuel).bind fun r =>
    match r.ret with
    | .error e => some { st with b := r.left, ended := some (.threw e) }
    | .ok _ =>
      let line := r.bytes
      -- the `reserve` in `string_join`
      if maxSize < line.length then
        some { st with b := r.left, ended := some (.threw .lengthError) }
      else if Verb.ofLine line = .data then (r.left.getList endOfData fuel).map (st.accept line)
      else some (st.answer r.left line)

def goBody (fuel : Nat) (st : Session F) : Option (Session F ⊕ Session F) :=
  (goRound fuel st).map fun st' => if st'.ended.isNone then .inl st' else .inr st'

def go (fuel : Nat) (f : F) : Option (Session F) := runNested goBody fuel (start f)

/-- The turns of a session one by one, each with fuel of its own. -/
def step (st : Session F) (fuel : Nat) : Option (Session F) :=
  if st.ended.isNone then goRound fuel st else none

def Runs (f : F) (fuels : List Nat) (st : Session F) : Prop := Run (ofFun step) (start f) fuels st

end Session

/-! ## The commands in a stream -/

/-- The next command line, of the bytes to come. -/
def lineOf (xs : Bytes) : Bytes := (getCut crlf.val (Delim.start crlf) xs).taken

def afterLine (xs : Bytes) : Bytes := (getCut crlf.val (Delim.start crlf) xs).rem

/-- The message, where the next command is DATA. -/
def messageCut (xs : Bytes) : Cut UInt8 Bool :=
  getCut endOfData.val (Delim.start endOfData) (afterLine xs)

def afterCommand (xs : Bytes) : Bytes :=
  if Verb.ofLine (lineOf xs) = .data then (messageCut xs).rem else afterLine xs

/-- The next command, and what comes of it. -/
def exchangeOf (xs envFrom : Bytes) : Exchange :=
  let line := lineOf xs
  let r := respond line envFrom (.ofLine line)
  if Verb.ofLine line = .data then
    ⟨line, [.startMail, .ok], (messageCut xs).taken, envFrom, []⟩
  else ⟨line, [r.1], [], envFrom, r.2⟩

theorem exchangeOf_data {xs envFrom : Bytes} (h : Verb.ofLine (lineOf xs) = .data) :
    exchangeOf xs envFrom =
      ⟨lineOf xs, [.startMail, .ok], (messageCut xs).taken, envFrom, []⟩ :=
  if_pos h

theorem exchangeOf_other {xs envFrom : Bytes} (h : ¬Verb.ofLine (lineOf xs) = .data) :
    exchangeOf xs envFrom =
      ⟨lineOf xs, [(respond (lineOf xs) envFrom (.ofLine (lineOf xs))).1], [], envFrom,
        (respond (lineOf xs) envFrom (.ofLine (lineOf xs))).2⟩ :=
  if_neg h

theorem exchangeOf_verb (xs envFrom : Bytes) :
    (exchangeOf xs envFrom).verb = Verb.ofLine (lineOf xs) := by
  by_cases h : Verb.ofLine (lineOf xs) = .data
  · rw [exchangeOf_data h]
    rfl
  · rw [exchangeOf_other h]
    rfl

/-- Lines that end the session. -/
def Closing (line : Bytes) : Prop := Verb.ofLine line = .quit ∨ maxSize < line.length

/-- The command lines of a stream, as far as a session gets. -/
inductive CommandLine : Bytes → Bytes → Prop
  | here (xs : Bytes) : CommandLine xs (lineOf xs)
  | next {xs line : Bytes} (hgo : ¬Closing (lineOf xs)) (h : CommandLine (afterCommand xs) line) :
      CommandLine xs line

namespace Session

variable {F : Type} [StreamFile F] {st st' : Session F} {fuel : Nat}

/-- A turn that answers a command. -/
structure Answers (st st' : Session F) : Prop where
  short : ¬maxSize < (lineOf (rest st.b)).length
  left : rest st'.b = afterCommand (rest st.b)
  exchanges : st'.exchanges = st.exchanges ++ [exchangeOf (rest st.b) st.envFrom]
  envFrom : st'.envFrom = (exchangeOf (rest st.b) st.envFrom).envAfter
  ended : st'.ended = if Verb.ofLine (lineOf (rest st.b)) = .quit then some .returned else none

-- What a turn sends.
theorem Answers.sent (h : Answers st st') (hostname : String) :
    st'.sent hostname = st.sent hostname ++
      (exchangeOf (rest st.b) st.envFrom).replies.map fun r => r.text hostname ++ "\r\n" := by
  unfold Session.sent replies
  rw [h.exchanges, List.flatMap_append, ← List.cons_append, List.map_append]
  simp only [List.flatMap_cons, List.flatMap_nil, List.append_nil]

/-- A turn that an exception ends. -/
structure Stops (st st' : Session F) : Prop where
  ended : st'.ended ≠ none
  exchanges : st'.exchanges = st.exchanges ∨
    ∃ x : Exchange, x.verb = .data ∧ x.replies = [.startMail] ∧ st'.exchanges = st.exchanges ++ [x]
  reason : Calm st.b → maxSize < (lineOf (rest st.b)).length

-- With the line read, the turn of any command but DATA.
theorem answer_answers {b : CoroBuffer F} (hleft : rest b = afterLine (rest st.b))
    (hshort : ¬maxSize < (lineOf (rest st.b)).length)
    (hverb : ¬Verb.ofLine (lineOf (rest st.b)) = .data) :
    Answers st (st.answer b (lineOf (rest st.b))) where
  short := hshort
  left := by
    rw [afterCommand, if_neg hverb]
    exact hleft
  exchanges := by
    rw [exchangeOf_other hverb]
    rfl
  envFrom := by
    rw [exchangeOf_other hverb]
    rfl
  ended := rfl

-- And that of DATA, whose message follows.
theorem accept_spec (hend : st.ended = none) {b : CoroBuffer F}
    (hleft : rest b = afterLine (rest st.b)) (hcalm : Calm st.b → Calm b)
    (hshort : ¬maxSize < (lineOf (rest st.b)).length)
    (hverb : Verb.ofLine (lineOf (rest st.b)) = .data)
    {r : Ended UInt8 ReadError (CoroBuffer F) Bool}
    (h : Meets b r (getCut endOfData.val (Delim.start endOfData) (rest b))) :
    (Calm st.b → Calm (st.accept (lineOf (rest st.b)) r).b) ∧
      (Answers st (st.accept (lineOf (rest st.b)) r) ∨
        Stops st (st.accept (lineOf (rest st.b)) r)) := by
  rw [hleft] at h
  rcases r with ⟨ret, pieces, left⟩
  have hcalm' : Calm st.b → Calm left := fun hst => (h.calm (hcalm hst)).1
  cases ret with
  | error e =>
    refine ⟨hcalm', .inr ⟨fun hnone => ?_, .inr ⟨⟨_, _, _, _, _⟩, hverb, rfl, rfl⟩, fun hst => ?_⟩⟩
    · cases hnone
    · cases (h.calm (hcalm hst)).2
  | ok closed =>
    rcases h.ok closed rfl with ⟨-, htaken, hrem⟩
    refine ⟨hcalm', .inl ⟨hshort, ?_, ?_, ?_, ?_⟩⟩
    · rw [afterCommand, if_pos hverb]
      exact hrem
    · rw [exchangeOf_data hverb, messageCut, ← htaken]
      rfl
    · rw [exchangeOf_data hverb]
      rfl
    · rw [hverb, if_neg (by decide)]
      exact hend

theorem goRound_spec (hend : st.ended = none) (h : goRound fuel st = some st') :
    (Calm st.b → Calm st'.b) ∧ (Answers st st' ∨ Stops st st') := by
  rcases Option.bind_eq_some_iff.mp h with ⟨r, hget, hround⟩
  have hmeets := CoroBuffer.get_meets hget
  rcases r with ⟨ret, pieces, left⟩
  cases ret with
  | error e =>
    obtain rfl := Option.some.inj hround
    have hnot : ¬Calm st.b := fun hst => by cases (hmeets.calm hst).2
    refine ⟨fun hst => absurd hst hnot, .inr ⟨fun hnone => ?_, .inl rfl, fun hst => absurd hst hnot⟩⟩
    cases hnone
  | ok closed =>
    rcases hmeets.ok closed rfl with ⟨-, htaken, hleft⟩
    have hcalm : Calm st.b → Calm left := fun hst => (hmeets.calm hst).1
    have hline : Ended.bytes (⟨.ok closed, pieces, left⟩ : Ended UInt8 ReadError (CoroBuffer F) Bool) =
        lineOf (rest st.b) := htaken
    dsimp only at hround
    rw [hline] at hround
    split at hround
    · rename_i hlong
      obtain rfl := Option.some.inj hround
      refine ⟨hcalm, .inr ⟨fun hnone => ?_, .inl rfl, fun _ => hlong⟩⟩
      cases hnone
    · rename_i hshort
      split at hround
      · rename_i hverb
        rcases Option.map_eq_some_iff.mp hround with ⟨r, hlist, rfl⟩
        exact accept_spec hend hleft hcalm hshort hverb (CoroBuffer.getList_meets hlist)
      · rename_i hverb
        obtain rfl := Option.some.inj hround
        exact ⟨hcalm, .inl (answer_answers hleft hshort hverb)⟩

-- Where no read throws, every turn comes to an end.
theorem goRound_yields (hcalm : Calm st.b) : ∃ st', Yields (goRound · st) st' := by
  rcases CoroBuffer.get_ends crlf st.b with ⟨⟨ret, pieces, left⟩, ⟨n, hn⟩, hmeets⟩
  obtain rfl : ret = .ok _ := (hmeets.calm hcalm).2
  rcases CoroBuffer.getList_ends endOfData left with ⟨message, ⟨k, hk⟩, -⟩
  have hget : ∀ fuel, n ≤ fuel → st.b.get crlf fuel = _ := hn
  have hlist : ∀ fuel, k ≤ fuel → left.getList endOfData fuel = _ := hk
  have hround : ∀ fuel, max n k ≤ fuel → goRound fuel st = some
      (if maxSize < pieces.flatten.length then
        { st with b := left, ended := some (.threw .lengthError) }
      else if Verb.ofLine pieces.flatten = .data then st.accept pieces.flatten message
      else st.answer left pieces.flatten) := by
    intro fuel hfuel
    rw [goRound, hget fuel (by omega), Option.bind_some, hlist fuel (by omega)]
    dsimp only [Ended.bytes]
    split_ifs <;> rfl
  exact ⟨_, max n k, hround⟩

end Session

end Coropp
