import Coropp.Descriptors

/-!
# Who closes a descriptor

Every descriptor from `::socket` or `::accept` has one holder, who closes it once, as long as none
of three answers comes: a failed `::socket`, a descriptor 0 from `::accept`, and a failed
handshake.
-/

namespace Coropp

open Transition

/-- The answer is none of the three that the code does not provide for. -/
def SockAct.Provided : SockAct → Bool
  -- ~coro_file closes the 0 that coro_file() has stored
  | .construct _ .failed => false
  -- `fd > 0` lets the descriptor 0 go
  | .accept _ (.opened fd _) => fd ≠ 0
  -- nobody deletes `conn`
  | .handshake _ ok => ok
  | _ => true

/-- The program has the object, or `coro_ssl::accept` has it, with its descriptor. -/
def SockObj.Reached (obj : SockObj) : Prop :=
  obj.reach = .program ∨ obj.reach = .accepting ∧ obj.fd ≠ -1

theorem SockObj.Reached.not_lost {obj : SockObj} (h : obj.Reached) : obj.reach ≠ .lost := by
  intro hlost
  unfold SockObj.Reached at h
  rw [hlost] at h
  cases h with
  | inl h => cases h
  | inr h => cases h.1

namespace Descriptors

/-- The program can reach `o`, and `o` holds `fd`. -/
def Holds (d : Descriptors) (o : ObjId) (fd : Fd) : Prop :=
  ∃ obj, d.objects o = some obj ∧ obj.reach ≠ .lost ∧ obj.fd = fd

/-- Descriptor ownership, as it should be at every moment. -/
structure Owned (d : Descriptors) : Prop where
  /-- `::close` gets -1, or what `::socket` or `::accept` returned to the object. -/
  own : ∀ c ∈ d.closes, c.fd = -1 ∨ ∃ f, c.target = some f ∧ f.owner = some c.object
  /-- No object closes two descriptors, or one twice. -/
  once : d.closes.Pairwise fun a b => a.fd = -1 ∨ b.fd = -1 ∨ a.object ≠ b.object
  /-- An open descriptor has exactly one holder. -/
  held : ∀ fd f, d.table fd = some f → f.origin ≠ .other → ∃! o, d.Holds o fd

/-- The `_fd` of an object, -1 where there is none. -/
def fdOf (d : Descriptors) (o : ObjId) : Fd := ((d.objects o).map SockObj.fd).getD (-1)

def ownerOf (d : Descriptors) (fd : Fd) : Option ObjId := (d.table fd).bind OpenFile.owner

/-- What keeps descriptors owned: objects and the table agree on who holds what. -/
structure Tied (d : Descriptors) : Prop where
  own : ∀ c ∈ d.closes, c.fd = -1 ∨ ∃ f, c.target = some f ∧ f.owner = some c.object
  once : d.closes.Pairwise fun a b => a.fd = -1 ∨ b.fd = -1 ∨ a.object ≠ b.object
  closed : ∀ c ∈ d.closes, c.fd = -1 ∨ c.object < d.births ∧ d.fdOf c.object = -1
  tied : ∀ o fd, fd ≠ -1 → (d.fdOf o = fd ↔ d.ownerOf fd = some o)
  origins : ∀ fd f, d.table fd = some f → (f.origin = .other ↔ f.owner = none)
  numbers : d.table (-1) = none
  born : ∀ o, d.births ≤ o → d.objects o = none
  reached : ∀ o obj, d.objects o = some obj → obj.Reached

section Steps

variable {d d' : Descriptors} {o : ObjId} {fd : Fd} {f : OpenFile} {obj : SockObj}

theorem fdOf_of_some (h : d.objects o = some obj) : d.fdOf o = obj.fd := by
  unfold fdOf
  rw [h]
  rfl

theorem fdOf_of_none (h : d.objects o = none) : d.fdOf o = -1 := by
  unfold fdOf
  rw [h]
  rfl

theorem ownerOf_of_some (h : d.table fd = some f) : d.ownerOf fd = f.owner := by
  unfold ownerOf
  rw [h]
  rfl

theorem ownerOf_of_none (h : d.table fd = none) : d.ownerOf fd = none := by
  unfold ownerOf
  rw [h]
  rfl

theorem exists_of_fdOf (h : d.fdOf o = fd) (hfd : fd ≠ -1) :
    ∃ obj, d.objects o = some obj ∧ obj.fd = fd := by
  cases hobj : d.objects o with
  | none =>
    rw [fdOf_of_none hobj] at h
    exact absurd h.symm hfd
  | some obj =>
    rw [fdOf_of_some hobj] at h
    exact ⟨obj, rfl, h⟩

theorem Tied.held (h : Tied d) (hf : d.table fd = some f) (horigin : f.origin ≠ .other) :
    ∃! o, d.Holds o fd := by
  have hfd : fd ≠ -1 := by
    intro hfd
    rw [hfd, h.numbers] at hf
    cases hf
  have hsome : f.owner ≠ none := fun hnone => horigin ((h.origins fd f hf).mpr hnone)
  rcases Option.ne_none_iff_exists'.mp hsome with ⟨o, ho⟩
  have howner : d.ownerOf fd = some o := (ownerOf_of_some hf).trans ho
  rcases exists_of_fdOf ((h.tied o fd hfd).mpr howner) hfd with ⟨obj, hobj, hobjfd⟩
  refine ⟨o, ⟨obj, hobj, (h.reached o obj hobj).not_lost, hobjfd⟩, ?_⟩
  rintro o' ⟨obj', hobj', -, hobjfd'⟩
  have howner' := (h.tied o' fd hfd).mp ((fdOf_of_some hobj').trans hobjfd')
  exact Option.some.inj (howner'.symm.trans howner)

theorem Tied.toOwned (h : Tied d) : Owned d where
  own := h.own
  once := h.once
  held _ _ hf horigin := h.held hf horigin

/-! ## What each step keeps -/

theorem fdOf_setObject (x : Option SockObj) (c : ObjId) :
    (d.setObject o x).fdOf c = if c = o then (x.map SockObj.fd).getD (-1) else d.fdOf c := by
  show ((Function.update d.objects o x c).map SockObj.fd).getD (-1) = _
  rw [Function.update_apply]
  split <;> rfl

theorem ownerOf_bound (x : Fd) :
    (d.bound fd f).ownerOf x = if x = fd then f.owner else d.ownerOf x := by
  show (Function.update d.table fd (some f) x).bind OpenFile.owner = _
  rw [Function.update_apply]
  split <;> rfl

-- The object under construction holds nothing yet.
theorem Tied.unborn (h : Tied d) : d.fdOf d.births = -1 :=
  fdOf_of_none (h.born _ (Nat.le_refl _))

theorem Tied.notOwner (h : Tied d) (hfd : fd ≠ -1) : d.ownerOf fd ≠ some d.births := by
  intro howner
  have hhold := (h.tied _ fd hfd).mpr howner
  exact hfd (hhold.symm.trans h.unborn)

theorem Tied.owns (h : Tied d) (hobj : d.objects o = some obj) (hfd : obj.fd ≠ -1) :
    d.ownerOf obj.fd = some o :=
  (h.tied o obj.fd hfd).mp (fdOf_of_some hobj)

theorem Tied.lt_births (h : Tied d) (hobj : d.objects o = some obj) : o < d.births := by
  by_contra hnot
  rw [h.born o (Nat.not_lt.mp hnot)] at hobj
  cases hobj

-- Nobody holds a number that is free.
theorem Tied.notHeld (h : Tied d) (hfree : d.Free fd) (o : ObjId) : d.fdOf o ≠ fd := by
  intro hhold
  have howner := (h.tied o fd hfree.ne).mp hhold
  rw [ownerOf_of_none hfree.2] at howner
  cases howner

-- A new object with a new descriptor.
theorem Tied.add (h : Tied d) (hfree : d.Free fd) (horigin : f.origin ≠ .other)
    (howner : f.owner = some d.births) (hfd : obj.fd = fd) (hreach : obj.Reached) :
    Tied ((d.bound fd f).addObject obj) where
  own := h.own
  once := h.once
  closed := by
    intro c hc
    refine (h.closed c hc).imp id fun hclosed => ⟨Nat.lt_succ_of_lt hclosed.1, ?_⟩
    show ((d.bound fd f).setObject d.births obj).fdOf c.object = -1
    rw [fdOf_setObject, if_neg (Nat.ne_of_lt hclosed.1)]
    exact hclosed.2
  tied := by
    intro o x hx
    show ((d.bound fd f).setObject d.births obj).fdOf o = x ↔ (d.bound fd f).ownerOf x = some o
    rw [fdOf_setObject, ownerOf_bound]
    show (if o = d.births then obj.fd else d.fdOf o) = x ↔ _
    by_cases ho : o = d.births
    · subst ho
      rw [if_pos rfl, hfd]
      by_cases hxfd : x = fd
      · rw [if_pos hxfd, hxfd]
        exact ⟨fun _ => howner, fun _ => rfl⟩
      · rw [if_neg hxfd]
        exact ⟨fun heq => absurd heq.symm hxfd, fun hown => absurd hown (h.notOwner hx)⟩
    · rw [if_neg ho]
      by_cases hxfd : x = fd
      · rw [if_pos hxfd, hxfd, howner]
        exact ⟨fun hhold => absurd hhold (h.notHeld hfree o),
          fun heq => absurd (Option.some.inj heq).symm ho⟩
      · rw [if_neg hxfd]
        exact h.tied o x hx
  origins := by
    intro x g hg
    rcases Maps.update_eq hg with ⟨-, hfg⟩ | ⟨-, hold⟩
    · rw [← Option.some.inj hfg, howner]
      exact ⟨fun hother => absurd hother horigin, fun hnone => nomatch hnone⟩
    · exact h.origins x g hold
  numbers := (Function.update_of_ne hfree.ne.symm ..).trans h.numbers
  born := by
    intro c hc
    have hne : c ≠ d.births := Nat.ne_of_gt hc
    exact (Function.update_of_ne hne ..).trans (h.born c (Nat.le_of_succ_le hc))
  reached := by
    intro c obj' hobj'
    rcases Maps.update_eq hobj' with ⟨-, hnew⟩ | ⟨-, hold⟩
    · rw [← Option.some.inj hnew]
      exact hreach
    · exact h.reached c obj' hold

theorem Tied.abandon (h : Tied d) (hfree : d.Free fd) (howner : f.owner = some d.births) :
    Tied ((d.bound fd f).abandon fd) := by
  rw [abandon_bound hfree]
  exact {
    own := by
      intro c hc
      rcases List.mem_append.mp hc with hold | hnew
      · exact h.own c hold
      · rw [List.mem_singleton.mp hnew]
        exact .inr ⟨f, rfl, howner⟩
    once := by
      rw [List.pairwise_append]
      refine ⟨h.once, List.pairwise_singleton _ _, ?_⟩
      intro a ha b hb
      rw [List.mem_singleton.mp hb]
      exact (h.closed a ha).imp id fun hclosed => .inr (Nat.ne_of_lt hclosed.1)
    closed := by
      intro c hc
      rcases List.mem_append.mp hc with hold | hnew
      · exact (h.closed c hold).imp id fun hclosed => ⟨Nat.lt_succ_of_lt hclosed.1, hclosed.2⟩
      · rw [List.mem_singleton.mp hnew]
        exact .inr ⟨Nat.lt_succ_self _, h.unborn⟩
    tied := h.tied
    origins := h.origins
    numbers := h.numbers
    born := fun c hc => h.born c (Nat.le_of_succ_le hc)
    reached := h.reached }

-- An object is replaced by one that holds the same, or by none where it held nothing.
theorem Tied.setObject (h : Tied d) (hobj : d.objects o = some obj) {x : Option SockObj}
    (hx : (x.map SockObj.fd).getD (-1) = obj.fd) (hreach : ∀ obj', x = some obj' → obj'.Reached) :
    Tied (d.setObject o x) := by
  have hsame : ∀ c, (d.setObject o x).fdOf c = d.fdOf c := by
    intro c
    rw [fdOf_setObject, hx]
    split
    · rename_i hc
      rw [hc, fdOf_of_some hobj]
    · rfl
  exact {
    own := h.own
    once := h.once
    closed := by
      intro c hc
      rw [hsame]
      exact h.closed c hc
    tied := by
      intro c y hy
      rw [hsame]
      exact h.tied c y hy
    origins := h.origins
    numbers := h.numbers
    born := by
      intro c hc
      have hne : c ≠ o := Nat.ne_of_gt (Nat.lt_of_lt_of_le (h.lt_births hobj) hc)
      exact (Function.update_of_ne hne ..).trans (h.born c hc)
    reached := by
      intro c obj' hobj'
      rcases Maps.update_eq hobj' with ⟨-, hnew⟩ | ⟨-, hold⟩
      · exact hreach obj' hnew
      · exact h.reached c obj' hold }

theorem ownerOf_sysClose (x : Fd) :
    (d.sysClose o fd).ownerOf x = if x = fd then none else d.ownerOf x := by
  show (Function.update d.table fd none x).bind OpenFile.owner = _
  rw [Function.update_apply]
  split <;> rfl

theorem fdOf_letGo {x : Option SockObj} (hx : (x.map SockObj.fd).getD (-1) = -1) (c : ObjId) :
    ((d.sysClose o fd).setObject o x).fdOf c = if c = o then -1 else d.fdOf c := by
  rw [fdOf_setObject, hx]
  rfl

-- The descriptor was held by `o` alone.
theorem Tied.letGo_tied (h : Tied d) (hobj : d.objects o = some obj) (c : ObjId) {y : Fd}
    (hy : y ≠ -1) :
    (if c = o then -1 else d.fdOf c) = y ↔ (d.sysClose o obj.fd).ownerOf y = some c := by
  have htied := h.tied c y hy
  rw [ownerOf_sysClose]
  by_cases hyfd : y = obj.fd
  · rw [if_pos hyfd]
    refine ⟨fun hhold => ?_, fun hnone => nomatch hnone⟩
    by_cases hc : c = o
    · rw [if_pos hc] at hhold
      exact absurd hhold.symm hy
    · rw [if_neg hc, htied, hyfd, h.owns hobj (hyfd ▸ hy)] at hhold
      exact absurd (Option.some.inj hhold).symm hc
  · rw [if_neg hyfd]
    by_cases hc : c = o
    · rw [if_pos hc, ← htied, hc, fdOf_of_some hobj]
      exact ⟨fun hone => absurd hone.symm hy, fun hheld => absurd hheld.symm hyfd⟩
    · rw [if_neg hc]
      exact htied

-- An object closes what it holds, and holds nothing from then on.
theorem Tied.letGo (h : Tied d) (hobj : d.objects o = some obj) {x : Option SockObj}
    (hx : (x.map SockObj.fd).getD (-1) = -1) (hreach : ∀ obj', x = some obj' → obj'.Reached) :
    Tied ((d.sysClose o obj.fd).setObject o x) where
  own := by
    intro c hc
    rcases List.mem_append.mp hc with hold | hnew
    · exact h.own c hold
    · rw [List.mem_singleton.mp hnew]
      by_cases hne : obj.fd = -1
      · exact .inl hne
      · exact .inr (Option.bind_eq_some_iff.mp (h.owns hobj hne))
  once := by
    refine List.pairwise_append.mpr ⟨h.once, List.pairwise_singleton _ _, ?_⟩
    intro a ha b hb
    rw [List.mem_singleton.mp hb]
    refine (h.closed a ha).imp id fun hclosed => ?_
    by_cases hao : a.object = o
    · rw [hao, fdOf_of_some hobj] at hclosed
      exact .inl hclosed.2
    · exact .inr hao
  closed := by
    intro c hc
    rw [fdOf_letGo hx]
    rcases List.mem_append.mp hc with hold | hnew
    · refine (h.closed c hold).imp id fun hclosed => ⟨hclosed.1, ?_⟩
      split
      · rfl
      · exact hclosed.2
    · rw [List.mem_singleton.mp hnew]
      exact .inr ⟨h.lt_births hobj, if_pos rfl⟩
  tied := by
    intro c y hy
    rw [fdOf_letGo hx]
    exact h.letGo_tied hobj c hy
  origins := by
    intro y g hg
    rcases Maps.update_eq hg with ⟨-, hnone⟩ | ⟨-, hold⟩
    · cases hnone
    · exact h.origins y g hold
  numbers := by
    show Function.update d.table obj.fd none (-1) = none
    rw [Function.update_apply, h.numbers, ite_self]
  born := by
    intro c hc
    have hne : c ≠ o := Nat.ne_of_gt (Nat.lt_of_lt_of_le (h.lt_births hobj) hc)
    exact (Function.update_of_ne hne ..).trans (h.born c hc)
  reached := by
    intro c obj' hobj'
    rcases Maps.update_eq hobj' with ⟨-, hnew⟩ | ⟨-, hold⟩
    · exact hreach obj' hnew
    · exact h.reached c obj' hold

-- The rest of the program opens and closes what no object owns.
theorem Tied.elsewhere (h : Tied d) (hfd : fd ≠ -1) (hnone : d.ownerOf fd = none)
    {t : Option OpenFile} (ht : ∀ f, t = some f → f.origin = .other ∧ f.owner = none) (n : Nat) :
    Tied { d with table := Function.update d.table fd t, serial := n } where
  own := h.own
  once := h.once
  closed := h.closed
  tied := by
    intro o x hx
    refine (h.tied o x hx).trans ?_
    show _ ↔ (Function.update d.table fd t x).bind OpenFile.owner = some o
    rw [Function.update_apply]
    split
    · rename_i hxfd
      rw [hxfd, hnone]
      cases t with
      | none => rfl
      | some f => rw [Option.bind_some, (ht f rfl).2]
    · rfl
  origins := by
    intro x g hg
    rcases Maps.update_eq hg with ⟨-, hnew⟩ | ⟨-, hold⟩
    · exact ⟨fun _ => (ht g hnew).2, fun _ => (ht g hnew).1⟩
    · exact h.origins x g hold
  numbers := (Function.update_of_ne hfd.symm ..).trans h.numbers
  born := h.born
  reached := h.reached

-- The step lemma: the answers that the code provides for keep everything owned.
theorem Tied.step (h : Tied d) {a : SockAct} (hstep : d.step a = some d') (ha : a.Provided = true) :
    Tied d' := by
  cases a with
  | construct cls r =>
    rcases construct_cases hstep with ⟨rfl, -⟩ | ⟨-, fd, f, hfree, horigin, howner, hend⟩
    · cases ha
    · rcases hend with rfl | ⟨-, rfl⟩
      · exact h.abandon hfree howner
      · exact h.add hfree (by rw [horigin]; simp) howner rfl (.inl rfl)
  | accept o r =>
    rcases step_accept hstep with ⟨obj, -, -, hacc⟩
    rcases acceptOn_cases hacc with ⟨rfl, -⟩ | ⟨-, -, ssl, rfl⟩ |
      ⟨fd, f, hfree, horigin, howner, -, -, hend⟩
    · exact h
    · cases ha
    · rcases hend with rfl | ⟨reach, hreach, rfl⟩
      · exact h.abandon hfree howner
      · apply h.add hfree (by rw [horigin]; simp) howner rfl
        cases reach with
        | program => exact .inl rfl
        | accepting => exact .inr ⟨rfl, hfree.ne⟩
        | lost => exact absurd rfl hreach
  | handshake o ok =>
    rcases step_handshake hstep with ⟨obj, hobj, -, rfl⟩
    obtain rfl : ok = true := ha
    apply h.setObject hobj rfl
    intro obj' hobj'
    rw [← Option.some.inj hobj']
    exact .inl rfl
  | io o c =>
    rw [step_io hstep]
    exact h
  | close o =>
    rcases step_close hstep with ⟨obj, hobj, hreach, rfl⟩
    apply h.letGo hobj rfl
    intro obj' hobj'
    rw [← Option.some.inj hobj']
    exact .inl hreach
  | destroy o =>
    rcases step_destroy hstep with ⟨obj, hobj, -, rfl⟩
    unfold fileDestructor
    split
    · exact h.letGo (x := none) hobj rfl (fun _ hobj' => nomatch hobj')
    · rename_i hfd
      have hminus : -1 = obj.fd := (Classical.not_not.mp hfd).symm
      exact h.setObject hobj hminus (fun _ hobj' => nomatch hobj')
  | otherOpen fd nonblocking =>
    rcases step_otherOpen hstep with ⟨hfree, rfl⟩
    apply h.elsewhere hfree.ne (ownerOf_of_none hfree.2)
    intro f hf
    rw [← Option.some.inj hf]
    exact ⟨rfl, rfl⟩
  | otherClose fd =>
    rcases step_otherClose hstep with ⟨f, hf, horigin, rfl⟩
    have hfd : fd ≠ -1 := by
      intro hfd
      rw [hfd, h.numbers] at hf
      cases hf
    have hnone : d.ownerOf fd = none := (ownerOf_of_some hf).trans ((h.origins fd f hf).mp horigin)
    exact h.elsewhere (t := none) hfd hnone (fun _ hg => nomatch hg) d.serial

-- Each of the other answers leaves a descriptor closed by a stranger, or without a holder.
theorem Tied.unprovided (h : Tied d) {a : SockAct} (hstep : d.step a = some d')
    (ha : a.Provided ≠ true) : ¬Owned d' := by
  intro howned
  cases a with
  | construct cls r =>
    rcases construct_cases hstep with ⟨rfl, rfl⟩ | ⟨hr, -⟩
    · have hown := howned.own ⟨d.births, 0, d.table 0⟩ (List.mem_append_right _ (.head _))
      rcases hown with hminus | ⟨f, hf, howner⟩
      · exact absurd hminus (by decide : ¬(0 : Fd) = -1)
      · have hzero : d.ownerOf 0 = some d.births := (ownerOf_of_some hf).trans howner
        exact h.notOwner (by decide) hzero
    · cases r with
      | failed => exact hr rfl
      | opened fd fcntl ssl => exact ha rfl
  | accept o r =>
    rcases step_accept hstep with ⟨obj, -, -, hacc⟩
    rcases acceptOn_cases hacc with ⟨-, rfl⟩ | ⟨hfree, rfl, -⟩ |
      ⟨fd, f, -, -, -, -, ⟨ssl, hne, rfl⟩, -⟩
    · exact ha rfl
    · have hopen : (d.sysOpen 0 .accept none false).table 0 = some ⟨d.serial, .accept, none, false⟩ :=
        Function.update_self (0 : Fd) _ d.table
      rcases howned.held 0 _ hopen (by simp) with ⟨o', ⟨obj', hobj', -, hfd⟩, -⟩
      exact h.notHeld hfree o' ((fdOf_of_some hobj').trans hfd)
    · exact ha (decide_eq_true hne)
  | handshake o ok =>
    rcases step_handshake hstep with ⟨obj, hobj, hreach, rfl⟩
    have hne : obj.fd ≠ -1 := by
      rcases h.reached o obj hobj with hprogram | haccepting
      · rw [hreach] at hprogram
        cases hprogram
      · exact haccepting.2
    have howner := h.owns hobj hne
    rcases Option.bind_eq_some_iff.mp howner with ⟨f, hf, hfowner⟩
    have horigin : f.origin ≠ .other := by
      intro hother
      rw [(h.origins obj.fd f hf).mp hother] at hfowner
      cases hfowner
    rcases howned.held obj.fd f hf horigin with ⟨o', ⟨obj', hobj', hlost, hfd⟩, -⟩
    rcases Maps.update_eq hobj' with ⟨-, hnew⟩ | ⟨ho', hold⟩
    · apply hlost
      rw [← Option.some.inj hnew]
      cases ok with
      | true => exact absurd rfl ha
      | false => rfl
    · -- another holder would own the descriptor too
      have howner' := (h.tied o' obj.fd hne).mp ((fdOf_of_some hold).trans hfd)
      exact ho' (Option.some.inj (howner'.symm.trans howner))
  | io o c => exact ha rfl
  | close o => exact ha rfl
  | destroy o => exact ha rfl
  | otherOpen fd nonblocking => exact ha rfl
  | otherClose fd => exact ha rfl

theorem tied_init : Tied {} where
  own _ hc := absurd hc List.not_mem_nil
  once := .nil
  closed _ hc := absurd hc List.not_mem_nil
  tied o fd hfd := by
    rw [fdOf_of_none rfl, ownerOf_of_none rfl]
    exact ⟨fun heq => absurd heq.symm hfd, fun hnone => nomatch hnone⟩
  origins _ _ hf := nomatch hf
  numbers := rfl
  born _ _ := rfl
  reached _ _ hobj := nomatch hobj

end Steps

/-- At every moment of a run every descriptor is owned as it should be, if and only if no `::socket`
    fails in a constructor, no `::accept` answers 0, and no handshake in `coro_ssl::accept` fails.  The
    program's own constructions leave `fd` at its default, so that only `accept` adopts a descriptor. -/
theorem owned_iff (acts : List SockAct) :
    (∀ pre d, pre <+: acts → Runs pre d → Owned d) ↔
      ∀ pre a d d', pre ++ [a] <+: acts → Runs pre d → d.step a = some d' → a.Provided = true :=
  Run.always_iff (fun _ h => h.toOwned) (fun _ _ _ h hstep ha => h.step hstep ha)
    (fun _ _ _ h hstep ha => h.unprovided hstep ha) tied_init acts

/-- With standard input on 0, a failed `::socket` closes it. -/
def socketFails : List SockAct := [.otherOpen 0 false, .construct .coroSocket .failed]

/-- With 0 free, a server accepts a connection on it. -/
def acceptsZero : List SockAct :=
  [.construct .coroSocket (.opened 3 true true), .accept 0 (.opened 0 true)]

/-- A client gives up during the handshake. -/
def handshakeFails : List SockAct :=
  [.construct .coroSsl (.opened 3 true true), .accept 0 (.opened 4 true), .handshake 1 false]

/-- Nobody owns what the object has closed, and nobody holds the descriptors 0 and 4. -/
theorem owned_broken :
    (∃ d, Runs socketFails d ∧ d.closes = [⟨0, 0, some ⟨0, .other, none, false⟩⟩] ∧ ¬Owned d) ∧
      (∃ d, Runs acceptsZero d ∧ (d.table 0).isSome = true ∧ ¬Owned d) ∧
      ∃ d, Runs handshakeFails d ∧ (d.table 4).isSome = true ∧ ¬Owned d := by
  refine ⟨⟨_, run_of_exec rfl, rfl, ?_⟩, ⟨_, run_of_exec rfl, rfl, ?_⟩, _, run_of_exec rfl, rfl, ?_⟩
  · intro howned
    rcases howned.own _ (.head _) with hminus | ⟨f, hf, howner⟩
    · exact absurd hminus (by decide)
    · obtain rfl := Option.some.inj hf
      cases howner
  · intro howned
    rcases howned.held 0 _ rfl (by decide) with ⟨o, ⟨obj, hobj, -, hfd⟩, -⟩
    rcases Maps.update_eq hobj with ⟨-, hnew⟩ | ⟨-, hold⟩
    · rw [← Option.some.inj hnew] at hfd
      exact absurd hfd (by decide)
    · cases hold
  · intro howned
    rcases howned.held 4 _ rfl (by decide) with ⟨o, ⟨obj, hobj, hlost, hfd⟩, -⟩
    rcases Maps.update_eq hobj with ⟨-, hnew⟩ | ⟨ho, hold⟩
    · rw [← Option.some.inj hnew] at hlost
      exact hlost rfl
    · rcases Maps.update_eq hold with ⟨rfl, -⟩ | ⟨-, hold⟩
      · exact ho rfl
      · rcases Maps.update_eq hold with ⟨-, hnew⟩ | ⟨-, hold⟩
        · rw [← Option.some.inj hnew] at hfd
          exact absurd hfd (by decide)
        · cases hold

end Descriptors

end Coropp
