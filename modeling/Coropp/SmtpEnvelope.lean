import Coropp.Smtp

/-!
# The envelope of an SMTP session

RCPT is answered with 250 where `_env_from` is not empty.  `find_email_addr` stores into it before it
knows that there is an address, and the number that it returns is one less than the address has
characters: an address of a single one is stored and rejected.
-/

namespace Coropp

open Loops Source Transition

/-! ## Searches -/

section

variable {chars s : Bytes}

theorem findFirstOf_lt {i : Nat} (h : findFirstOf chars s = some i) : i < s.length := by
  induction s generalizing i with
  | nil => cases h
  | cons x s ih =>
    rw [findFirstOf] at h
    rw [List.length_cons]
    split at h
    · obtain rfl := Option.some.inj h
      omega
    · rcases Option.map_eq_some_iff.mp h with ⟨k, hk, rfl⟩
      have hlt := ih hk
      omega

theorem findLastOf_none_iff : findLastOf chars s = none ↔ ∀ x ∈ s, x ∉ chars := by
  induction s with
  | nil => simp [findLastOf]
  | cons x s ih =>
    rw [findLastOf, List.forall_mem_cons, ← ih]
    cases findLastOf chars s with
    | some j => simp
    | none => simp

theorem findLastOf_append {pre post : Bytes} {x : UInt8} (hx : x ∈ chars)
    (hpost : ∀ y ∈ post, y ∉ chars) : findLastOf chars (pre ++ x :: post) = some pre.length := by
  induction pre with
  | nil =>
    rw [List.nil_append, findLastOf, findLastOf_none_iff.mpr hpost]
    exact if_pos hx
  | cons y pre ih => rw [List.cons_append, findLastOf, ih, List.length_cons]

theorem exists_of_findLastOf {j : Nat} (h : findLastOf chars s = some j) :
    ∃ pre x post, s = pre ++ x :: post ∧ pre.length = j ∧ x ∈ chars ∧ ∀ y ∈ post, y ∉ chars := by
  induction s generalizing j with
  | nil => cases h
  | cons x s ih =>
    rw [findLastOf] at h
    cases hs : findLastOf chars s with
    | some k =>
      rw [hs] at h
      obtain rfl := Option.some.inj h
      rcases ih hs with ⟨pre, y, post, rfl, hlen, hy, hpost⟩
      exact ⟨x :: pre, y, post, rfl, congrArg (· + 1) hlen, hy, hpost⟩
    | none =>
      rw [hs] at h
      dsimp only at h
      split at h
      · rename_i hx
        obtain rfl := Option.some.inj h
        exact ⟨[], x, s, rfl, rfl, hx, findLastOf_none_iff.mp hs⟩
      · cases h

theorem findLastOf_lt {j : Nat} (h : findLastOf chars s = some j) : j < s.length := by
  rcases exists_of_findLastOf h with ⟨pre, x, post, rfl, rfl, -, -⟩
  rw [List.length_append, List.length_cons]
  omega

-- The last of these characters, in what `find_email_addr` cuts out.
theorem findLastOf_result {i j : Nat} (hpos : 0 < i) (h : findLastOf chars s = some j) :
    findLastOf chars (substr s (i + 1) (sizeSub j 1)) =
      if i < j then some (j - i - 1) else none := by
  rcases exists_of_findLastOf h with ⟨pre, x, post, rfl, rfl, hx, hpost⟩
  unfold substr
  split
  · rename_i hlt
    have hlen : (pre.drop (i + 1)).length = pre.length - i - 1 := by
      rw [List.length_drop]
      omega
    have hcount : sizeSub pre.length 1 = (pre.drop (i + 1)).length + (i - 1 + 1) := by
      rw [sizeSub_of_le (by omega), hlen]
      omega
    rw [List.drop_append_of_le_length (by omega), hcount, List.take_length_add_append,
      List.take_succ_cons, ← hlen]
    exact findLastOf_append hx fun y hy => hpost y (List.mem_of_mem_take hy)
  · rename_i hge
    rw [findLastOf_none_iff]
    intro y hy
    have hdrop : (pre ++ x :: post).drop (i + 1) = post.drop (i - pre.length) := by
      rw [List.drop_append, List.drop_of_length_le (by omega), List.nil_append]
      have hone : i + 1 - pre.length = i - pre.length + 1 := by omega
      rw [hone, List.drop_succ_cons]
    rw [hdrop] at hy
    exact hpost y (List.mem_of_mem_drop (List.mem_of_mem_take hy))

end

/-! ## MAIL -/

/-- A MAIL command whose address has one character: the last '>' comes two places after the
    first '<'. -/
def Misparsed (line : Bytes) : Prop :=
  line.length ≤ maxSize ∧ Verb.ofLine line = .mail ∧
    ∃ i, findFirstOf [60] line = some i ∧ findLastOf [62] line = some (i + 2)

theorem verb_mail {command : Bytes} (h : Verb.of command = .mail) :
    command = ascii ['m', 'a', 'i', 'l'] := by
  unfold Verb.of at h
  split_ifs at h
  assumption

-- The command comes before the address.
theorem mail_bracket {line : Bytes} {i : Nat} (hverb : Verb.ofLine line = .mail)
    (hfirst : findFirstOf [60] line = some i) : 0 < i := by
  cases line with
  | nil => cases hfirst
  | cons x line =>
    rw [findFirstOf] at hfirst
    split at hfirst
    · rename_i hx
      obtain rfl := List.mem_singleton.mp hx
      have hcommand := verb_mail hverb
      unfold splitFirst at hcommand
      rw [findFirstOf, if_neg (by decide)] at hcommand
      cases hdelim : findFirstOf [32, 9, 13, 10] line with
      | none =>
        rw [hdelim] at hcommand
        cases hcommand
      | some k =>
        rw [hdelim] at hcommand
        have hhead : some (tolower 60) = some 109 := congrArg List.head? hcommand
        exact absurd hhead (by decide)
    · rcases Option.map_eq_some_iff.mp hfirst with ⟨k, -, rfl⟩
      omega

theorem findEmailAddr_found (envFrom : Bytes) {line : Bytes} {i j : Nat}
    (hfirst : findFirstOf [60] line = some i) (hlast : findLastOf [62] line = some j) :
    findEmailAddr envFrom line =
      (substr line (i + 1) (sizeSub j 1), sizeSub (sizeSub j i) 2) := by
  unfold findEmailAddr
  rw [hfirst, hlast]

theorem count_zero_iff {line : Bytes} {i j : Nat} (hshort : line.length ≤ maxSize)
    (hfirst : findFirstOf [60] line = some i) (hlast : findLastOf [62] line = some j) :
    sizeSub (sizeSub j i) 2 = 0 ↔ j = i + 2 := by
  have hi := findFirstOf_lt hfirst
  have hj := findLastOf_lt hlast
  unfold maxSize at hshort
  unfold sizeSub
  split <;> split <;> omega

theorem respond_mail (line envFrom : Bytes) :
    respond line envFrom .mail =
      (if (findEmailAddr envFrom line).2 > 0 then .ok else .syntaxError,
        (findEmailAddr envFrom line).1) := by
  unfold respond
  dsimp only
  split <;> rfl

theorem respond_misparsed {line : Bytes} (h : Misparsed line) (envFrom : Bytes) :
    (respond line envFrom .mail).1 = .syntaxError ∧
      findLastOf [62] (respond line envFrom .mail).2 = some 1 := by
  rcases h with ⟨hshort, hverb, i, hfirst, hlast⟩
  have hzero := (count_zero_iff hshort hfirst hlast).mpr rfl
  have hdist : i + 2 - i - 1 = 1 := by omega
  rw [respond_mail, findEmailAddr_found envFrom hfirst hlast, hzero]
  refine ⟨rfl, ?_⟩
  rw [findLastOf_result (mail_bracket hverb hfirst) hlast, if_pos (by omega), hdist]

-- Otherwise a MAIL command that is rejected stores nothing, and one that is not stores no string
-- like that.
theorem respond_not_misparsed {line : Bytes} (hshort : line.length ≤ maxSize)
    (hverb : Verb.ofLine line = .mail) (hnot : ¬Misparsed line) (envFrom : Bytes) :
    respond line envFrom .mail = (.syntaxError, envFrom) ∨
      (respond line envFrom .mail).1 = .ok ∧
        findLastOf [62] (respond line envFrom .mail).2 ≠ some 1 := by
  have hmissing : findEmailAddr envFrom line = (envFrom, 0) →
      respond line envFrom .mail = (.syntaxError, envFrom) := by
    intro hnone
    rw [respond_mail, hnone, if_neg (Nat.lt_irrefl 0)]
  cases hfirst : findFirstOf [60] line with
  | none =>
    apply Or.inl
    apply hmissing
    unfold findEmailAddr
    rw [hfirst]
  | some i =>
    cases hlast : findLastOf [62] line with
    | none =>
      apply Or.inl
      apply hmissing
      unfold findEmailAddr
      rw [hfirst, hlast]
    | some j =>
      have hne : j ≠ i + 2 := by
        rintro rfl
        exact hnot ⟨hshort, hverb, i, hfirst, hlast⟩
      have hcount : sizeSub (sizeSub j i) 2 > 0 :=
        Nat.pos_of_ne_zero fun hzero => hne ((count_zero_iff hshort hfirst hlast).mp hzero)
      apply Or.inr
      rw [respond_mail, findEmailAddr_found envFrom hfirst hlast, if_pos hcount]
      refine ⟨rfl, ?_⟩
      rw [findLastOf_result (mail_bracket hverb hfirst) hlast]
      split
      · intro hone
        have hdist := Option.some.inj hone
        omega
      · exact nofun

-- No other command changes `_env_from`.
theorem respond_envFrom {line envFrom : Bytes} {v : Verb} (hmail : v ≠ .mail) (hrset : v ≠ .rset) :
    (respond line envFrom v).2 = envFrom := by
  cases v with
  | mail => contradiction
  | rset => contradiction
  | rcpt =>
    dsimp only [respond]
    split_ifs <;> rfl
  | _ => rfl

/-! ## One command -/

section

variable {xs envFrom : Bytes}

theorem exchangeOf_envBefore (xs envFrom : Bytes) : (exchangeOf xs envFrom).envBefore = envFrom := by
  by_cases h : Verb.ofLine (lineOf xs) = .data
  · rw [exchangeOf_data h]
  · rw [exchangeOf_other h]

-- A command that is answered from its line.
theorem exchangeOf_verb_eq {v : Verb} (h : Verb.ofLine (lineOf xs) = v) (hv : v ≠ .data) :
    exchangeOf xs envFrom =
      ⟨lineOf xs, [(respond (lineOf xs) envFrom v).1], [], envFrom,
        (respond (lineOf xs) envFrom v).2⟩ := by
  subst h
  exact exchangeOf_other hv

theorem exchangeOf_mail (h : Verb.ofLine (lineOf xs) = .mail) :
    exchangeOf xs envFrom =
      ⟨lineOf xs, [(respond (lineOf xs) envFrom .mail).1], [], envFrom,
        (respond (lineOf xs) envFrom .mail).2⟩ :=
  exchangeOf_verb_eq h (by decide)

theorem answered_one {line body envBefore envAfter : Bytes} {r : Reply} {code : Nat}
    (h : Exchange.Answered ⟨line, [r], body, envBefore, envAfter⟩ code) : r.code = code := by
  rcases h with ⟨r', hmem, hcode⟩
  rw [← List.mem_singleton.mp hmem]
  exact hcode

theorem rcpt_ok (h : (exchangeOf xs envFrom).verb = .rcpt)
    (hok : (exchangeOf xs envFrom).Answered 250) : envFrom ≠ [] := by
  rw [exchangeOf_verb] at h
  rw [exchangeOf_verb_eq h (by decide)] at hok
  rintro rfl
  have hcode : Reply.mailFirst.code = 250 := answered_one hok
  exact absurd hcode (by decide)

theorem mail_rejected (hshort : (lineOf xs).length ≤ maxSize) (hnot : ¬Misparsed (lineOf xs))
    (h : (exchangeOf xs envFrom).verb = .mail)
    (hrejected : (exchangeOf xs envFrom).Answered 501) :
    (exchangeOf xs envFrom).envAfter = envFrom := by
  rw [exchangeOf_verb] at h
  rw [exchangeOf_mail h] at hrejected ⊢
  rcases respond_not_misparsed hshort h hnot envFrom with hmissing | ⟨hok, -⟩
  · rw [hmissing]
  · rw [hok] at hrejected
    exact absurd (answered_one hrejected) (by decide)

-- `_env_from` is cleared, stored with a MAIL command that is answered 250, or left as it was.
theorem envAfter_cases (hshort : (lineOf xs).length ≤ maxSize) (hnot : ¬Misparsed (lineOf xs)) :
    (exchangeOf xs envFrom).envAfter = [] ∨
      ((exchangeOf xs envFrom).verb = .mail ∧ (exchangeOf xs envFrom).Answered 250 ∧
        findLastOf [62] (exchangeOf xs envFrom).envAfter ≠ some 1) ∨
      ((exchangeOf xs envFrom).verb ≠ .data ∧ (exchangeOf xs envFrom).verb ≠ .rset ∧
        (exchangeOf xs envFrom).envAfter = envFrom) := by
  rw [exchangeOf_verb]
  by_cases hdata : Verb.ofLine (lineOf xs) = .data
  · rw [exchangeOf_data hdata]
    exact .inl rfl
  · by_cases hrset : Verb.ofLine (lineOf xs) = .rset
    · rw [exchangeOf_verb_eq hrset (by decide)]
      exact .inl rfl
    · apply Or.inr
      by_cases hmail : Verb.ofLine (lineOf xs) = .mail
      · rw [exchangeOf_mail hmail]
        rcases respond_not_misparsed hshort hmail hnot envFrom with hmissing | ⟨hok, hmark⟩
        · rw [hmissing]
          exact .inr ⟨hdata, hrset, rfl⟩
        · rw [hok]
          exact .inl ⟨hmail, ⟨.ok, .head _, rfl⟩, hmark⟩
      · rw [exchangeOf_other hdata]
        exact .inr ⟨hdata, hrset, respond_envFrom hmail hrset⟩

end

/-! ## Sessions -/

/-- A MAIL command has been answered with 250 since the start, or the last RSET or DATA. -/
def mailAccepted (xs : List Exchange) : Bool :=
  xs.foldl (fun accepted x =>
    match x.verb with
    | .rset | .data => false
    | .mail => accepted || decide (x.Answered 250)
    | _ => accepted) false

theorem mailAccepted_snoc (xs : List Exchange) (x : Exchange) :
    mailAccepted (xs ++ [x]) =
      match x.verb with
      | .rset | .data => false
      | .mail => mailAccepted xs || decide (x.Answered 250)
      | _ => mailAccepted xs := by
  rw [mailAccepted, List.foldl_append]
  rfl

theorem mailAccepted_kept {xs : List Exchange} {x : Exchange} (h : mailAccepted xs = true)
    (hdata : x.verb ≠ .data) (hrset : x.verb ≠ .rset) : mailAccepted (xs ++ [x]) = true := by
  rw [mailAccepted_snoc]
  split
  · contradiction
  · contradiction
  · rw [h]
    rfl
  · exact h

namespace Session

section

variable {F : Type}

/-- RCPT has been answered with 250 after a MAIL that was, and no MAIL that was rejected has changed
    `_env_from`. -/
structure Safe (st : Session F) : Prop where
  rcpt : ∀ before x, before ++ [x] <+: st.exchanges → x.verb = .rcpt → x.Answered 250 →
    mailAccepted before = true
  mail : ∀ x ∈ st.exchanges, x.verb = .mail → x.Answered 501 → x.envAfter = x.envBefore

theorem safe_snoc {st st' : Session F} (h : st.Safe) {x : Exchange}
    (hnext : st'.exchanges = st.exchanges ++ [x])
    (hrcpt : x.verb = .rcpt → x.Answered 250 → mailAccepted st.exchanges = true)
    (hmail : x.verb = .mail → x.Answered 501 → x.envAfter = x.envBefore) : st'.Safe where
  rcpt before y hpre hverb hok := by
    rw [hnext, List.prefix_concat_iff] at hpre
    rcases hpre with heq | hold
    · rcases List.append_inj' heq rfl with ⟨rfl, hlast⟩
      obtain rfl := List.singleton_inj.mp hlast
      exact hrcpt hverb hok
    · exact h.rcpt before y hold hverb hok
  mail y hy hverb hrejected := by
    rw [hnext] at hy
    rcases List.mem_append.mp hy with hold | hnew
    · exact h.mail y hold hverb hrejected
    · obtain rfl := List.mem_singleton.mp hnew
      exact hmail hverb hrejected

end

variable {F : Type} [StreamFile F] {st st' : Session F} {fuel : Nat}

/-- Besides, as long as the session goes on: `_env_from` is empty where no MAIL has been accepted,
    and the commands to come are those of the stream. -/
structure Guarded (stream : Bytes) (st : Session F) : Prop extends Safe st where
  env : st.ended = none → st.envFrom ≠ [] → mailAccepted st.exchanges = true
  ahead : st.ended = none → ∀ line, CommandLine (rest st.b) line → CommandLine stream line

theorem answers_guarded {stream : Bytes} (h : st.Guarded stream) (hend : st.ended = none)
    (hanswers : Answers st st') (hnot : ¬Misparsed (lineOf (rest st.b))) : st'.Guarded stream := by
  have hshort := Nat.le_of_not_lt hanswers.short
  refine ⟨safe_snoc h.toSafe hanswers.exchanges (fun hverb hok => ?_) (fun hverb hrejected => ?_),
    fun _ henv => ?_, fun hend' line hline => ?_⟩
  · exact h.env hend (rcpt_ok hverb hok)
  · rw [exchangeOf_envBefore]
    exact mail_rejected hshort hnot hverb hrejected
  · rw [hanswers.envFrom] at henv
    rw [hanswers.exchanges]
    rcases envAfter_cases hshort hnot with hnil | ⟨hverb, hok, -⟩ | ⟨hdata, hrset, hsame⟩
    · exact absurd hnil henv
    · rw [mailAccepted_snoc, hverb]
      simp [hok]
    · rw [hsame] at henv
      exact mailAccepted_kept (h.env hend henv) hdata hrset
  · have hgo : ¬Closing (lineOf (rest st.b)) := by
      rintro (hquit | hlong)
      · rw [hanswers.ended, if_pos hquit] at hend'
        cases hend'
      · exact hanswers.short hlong
    rw [hanswers.left] at hline
    exact h.ahead hend line (.next hgo hline)

theorem stops_guarded {stream : Bytes} (h : st.Guarded stream) (hstops : Stops st st') :
    st'.Guarded stream := by
  refine ⟨?_, fun hend => absurd hend hstops.ended, fun hend => absurd hend hstops.ended⟩
  rcases hstops.exchanges with hsame | ⟨x, hverb, -, hnext⟩
  · constructor
    · rw [hsame]
      exact h.rcpt
    · rw [hsame]
      exact h.mail
  · apply safe_snoc h.toSafe hnext
    · intro hrcpt
      cases hverb.symm.trans hrcpt
    · intro hmail
      cases hverb.symm.trans hmail

theorem step_guarded {stream : Bytes} (hnot : ∀ line, CommandLine stream line → ¬Misparsed line)
    (h : st.Guarded stream) (hstep : st.step fuel = some st') : st'.Guarded stream := by
  unfold step at hstep
  split at hstep
  · rename_i hnone
    have hend : st.ended = none := by simpa using hnone
    rcases goRound_spec hend hstep with ⟨-, hanswers | hstops⟩
    · exact answers_guarded h hend hanswers (hnot _ (h.ahead hend _ (.here _)))
    · exact stops_guarded h hstops
  · cases hstep

/-! ## A misparsed address -/

/-- In a session that has not met such a command, `_env_from` is no string that it stores. -/
def Unmarked (st : Session F) : Prop := findLastOf [62] st.envFrom ≠ some 1

theorem step_of_yields (hend : st.ended = none) (hcalm : Calm st.b) :
    ∃ fuel st', st.step fuel = some st' ∧ goRound fuel st = some st' := by
  rcases goRound_yields hcalm with ⟨st', n, hn⟩
  have hround : goRound n st = some st' := hn n (Nat.le_refl n)
  refine ⟨n, st', ?_, hround⟩
  rw [step, if_pos (by simp [hend])]
  exact hround

theorem misparsed_unsafe (hend : st.ended = none) (hcalm : Calm st.b)
    (hbad : Misparsed (lineOf (rest st.b))) (hmark : st.Unmarked) :
    ∃ fuel st', st.step fuel = some st' ∧ ¬st'.Safe := by
  rcases step_of_yields hend hcalm with ⟨fuel, st', hstep, hround⟩
  refine ⟨fuel, st', hstep, fun hsafe => ?_⟩
  rcases goRound_spec hend hround with ⟨-, hanswers | hstops⟩
  · have hmem : exchangeOf (rest st.b) st.envFrom ∈ st'.exchanges := by
      rw [hanswers.exchanges]
      exact List.mem_append_right _ (.head _)
    rcases respond_misparsed hbad st.envFrom with ⟨hrejected, hstored⟩
    have hsame := hsafe.mail _ hmem
    rw [exchangeOf_verb, exchangeOf_mail hbad.2.1] at hsame
    have hkept := hsame hbad.2.1 ⟨.syntaxError, by rw [hrejected]; exact .head _, rfl⟩
    dsimp only at hkept
    rw [hkept] at hstored
    exact hmark hstored
  · have hlong := hstops.reason hcalm
    have hshort := hbad.1
    omega

-- The induction is on the way to the misparsed line, or to an earlier one.
theorem unsafe_of_commandLine {xs line : Bytes} (hline : CommandLine xs line) (hbad : Misparsed line)
    (hend : st.ended = none) (hcalm : Calm st.b) (hxs : rest st.b = xs) (hmark : st.Unmarked) :
    ∃ fuels st', Run (ofFun step) st fuels st' ∧ ¬st'.Safe := by
  induction hline generalizing st with
  | here xs =>
    rcases misparsed_unsafe hend hcalm (hxs ▸ hbad) hmark with ⟨fuel, st', hstep, hunsafe⟩
    exact ⟨[fuel], st', Run.single hstep, hunsafe⟩
  | @next xs line hgo h ih =>
    by_cases hhere : Misparsed (lineOf (rest st.b))
    · rcases misparsed_unsafe hend hcalm hhere hmark with ⟨fuel, st', hstep, hunsafe⟩
      exact ⟨[fuel], st', Run.single hstep, hunsafe⟩
    · rcases step_of_yields hend hcalm with ⟨fuel, st₁, hstep, hround⟩
      rw [← hxs] at hgo
      rcases goRound_spec hend hround with ⟨hcalm₁, hanswers | hstops⟩
      · have hend₁ : st₁.ended = none := by
          rw [hanswers.ended, if_neg fun hquit => hgo (.inl hquit)]
        have hmark₁ : st₁.Unmarked := by
          unfold Unmarked
          rw [hanswers.envFrom]
          rcases envAfter_cases (Nat.le_of_not_lt hanswers.short) hhere with
            hnil | ⟨-, -, hstored⟩ | ⟨-, -, hsame⟩
          · rw [hnil]
            exact nofun
          · exact hstored
          · rw [hsame]
            exact hmark
        rcases ih hbad hend₁ (hcalm₁ hcalm) (by rw [hanswers.left, hxs]) hmark₁ with
          ⟨fuels, st', run, hunsafe⟩
        exact ⟨fuel :: fuels, st', (Run.single hstep).trans run, hunsafe⟩
      · exact absurd (.inr (hstops.reason hcalm)) hgo

/-- However its stream is read, a session is safe throughout if and only if no MAIL command of the
    stream has an address of one character. -/
theorem envelope_safe_iff (stream : Bytes) :
    (∀ script fuels st, Runs (File.mk stream script) fuels st → st.Safe) ↔
      ∀ line, CommandLine stream line → ¬Misparsed line := by
  constructor
  · intro hsafe line hline hbad
    have hunsafe : ∃ fuels st', Run (ofFun step) (start (File.mk stream [])) fuels st' ∧ ¬st'.Safe :=
      unsafe_of_commandLine hline hbad rfl (fun e => List.not_mem_nil) rfl nofun
    rcases hunsafe with ⟨fuels, st', run, hnot⟩
    exact hnot (hsafe [] fuels st' run)
  · intro hnot script fuels st run
    have hguarded : st.Guarded stream := by
      apply Run.invariant (I := Guarded stream) (fun _ _ _ h hstep => step_guarded hnot h hstep) run
      refine ⟨⟨fun before x hpre => ?_, fun x hx => absurd hx List.not_mem_nil⟩,
        fun _ henv => absurd rfl henv, fun _ line hline => hline⟩
      have hlen := hpre.length_le
      rw [List.length_append] at hlen
      exact absurd hlen (Nat.not_succ_le_zero _)
    exact hguarded.toSafe

/-- `MAIL FROM:<a>` and `RCPT TO:<bob>`. -/
def oneCharacter : Bytes :=
  ascii ['M', 'A', 'I', 'L', ' ', 'F', 'R', 'O', 'M', ':', '<', 'a', '>'] ++ crlf.val ++
    ascii ['R', 'C', 'P', 'T', ' ', 'T', 'O', ':', '<', 'b', 'o', 'b', '>'] ++ crlf.val

/-- The MAIL command is answered with 501 and stores the rest of its line, and the RCPT command is
    answered with 250. -/
theorem rejected_mail_stored :
    ∃ st, Runs (File.mk oneCharacter []) [3, 3] st ∧
      st.exchanges.map Exchange.replies = [[.syntaxError], [.ok]] ∧
      st.envFrom = ascii ['a', '>'] ++ crlf.val ∧ ¬st.Safe := by
  refine ⟨_, run_of_exec rfl, rfl, rfl, fun hsafe => ?_⟩
  cases hsafe.mail _ (.head _) rfl ⟨.syntaxError, .head _, rfl⟩

end Session

end Coropp
