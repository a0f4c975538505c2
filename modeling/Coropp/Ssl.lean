import Coropp.Conservation

/-!
# `coro_buffer` over a `coro_ssl`

Which body a call of `read` or `write` runs is decided by the declarations of the file classes: a
member function overrides only a virtual one with the same parameter types.  `coro_ssl::read` takes
a `char *` where the virtual `coro_file::read` takes a `void *`, so a `coro_buffer` reads what is on
the descriptor.
-/

namespace Coropp

open Loops Source

/-! ## Overloads and overriding -/

/-- The types of parameters and arguments, up to references. -/
inductive CxxType where
  | voidPtr
  | constVoidPtr
  | charPtr
  | constCharPtr
  | string
  | constString
  | sizeT
deriving DecidableEq, Repr

inductive MemberName where
  | read
  | write
deriving DecidableEq, Repr

/-- The bodies of the `read` and `write` functions. -/
inductive Body where
  | fileWrite
  | fileWriteString
  | fileWriteChars
  | fileRead
  | fileReadString
  | sslRead
  | sslWrite
deriving DecidableEq, Repr

structure Member where
  name : MemberName
  params : List CxxType
  isVirtual : Bool
  body : Body
deriving DecidableEq, Repr

inductive FileClass where
  | coroFile
  | coroSocket
  | coroSsl
deriving DecidableEq, Repr

/-- What the class itself declares under these names. -/
def FileClass.members : FileClass → List Member
  | .coroFile =>
    [⟨.write, [.constVoidPtr, .sizeT], true, .fileWrite⟩,
      ⟨.write, [.constString], false, .fileWriteString⟩,
      ⟨.write, [.constCharPtr], false, .fileWriteChars⟩,
      ⟨.read, [.voidPtr, .sizeT], true, .fileRead⟩,
      ⟨.read, [.string, .sizeT], false, .fileReadString⟩]
  | .coroSocket => []
  | .coroSsl =>
    [⟨.read, [.charPtr, .sizeT], false, .sslRead⟩,
      ⟨.write, [.constVoidPtr, .sizeT], false, .sslWrite⟩]

/-- The class and its bases, the most derived one first. -/
def FileClass.lineage : FileClass → List FileClass
  | .coroFile => [.coroFile]
  | .coroSocket => [.coroSocket, .coroFile]
  | .coroSsl => [.coroSsl, .coroSocket, .coroFile]

/-- An argument goes to a parameter of its own type, or converts. -/
def CxxType.converts (arg param : CxxType) : Bool :=
  arg == param ||
    match arg, param with
    | .charPtr, .voidPtr | .charPtr, .constVoidPtr | .charPtr, .constCharPtr => true
    | .string, .constString => true
    | _, _ => false

/-- The overload of `coro_file` that a call through a `coro_file *` means. -/
def overload (name : MemberName) (args : List CxxType) : Option Member :=
  FileClass.coroFile.members.find? fun m =>
    m.name == name && m.params.length == args.length &&
      (args.zip m.params).all fun a => a.1.converts a.2

/-- The body that runs when `m` is called on an object of class `cls`. -/
def dispatch (cls : FileClass) (m : Member) : Body :=
  if m.isVirtual then
    match (cls.lineage.flatMap FileClass.members).find? fun o =>
      o.name == m.name && o.params == m.params with
    | some o => o.body
    | none => m.body
  else m.body

/-- The body of a call through a `coro_file *` to an object of class `cls`. -/
def callThrough (cls : FileClass) (name : MemberName) (args : List CxxType) : Option Body :=
  (overload name args).map (dispatch cls)

-- Writes go through `SSL_write`, reads through `::read`.
example : callThrough .coroSsl .write [.constVoidPtr, .sizeT] = some .sslWrite := rfl
example : callThrough .coroSsl .read [.charPtr, .sizeT] = some .fileRead := rfl

/-! ## A connection -/

/-- What a call of `SSL_read` answers. -/
inductive SslAnswer where
  | chunk (n : Nat) (pos : 0 < n)
  | wantRead
  | wantWrite
  /-- `wait_or_error` throws. -/
  | error (e : Errno)
deriving Repr

/-- What the peer has sent, decrypted, and the answers of `SSL_read` to come. -/
structure SslStream where
  plaintext : Bytes
  answers : List SslAnswer := []
deriving Repr

/-- The loop of `coro_ssl::read`. -/
def SslStream.readLoop (length : Nat) (plaintext : Bytes) :
    List SslAnswer → Except Errno Bytes × SslStream
  | [] => (.ok (plaintext.take length), ⟨plaintext.drop length, []⟩)
  | .chunk n _ :: answers =>
    (.ok (plaintext.take (min n length)), ⟨plaintext.drop (min n length), answers⟩)
  -- `wait_or_error`, and around again
  | .wantRead :: answers | .wantWrite :: answers => readLoop length plaintext answers
  | .error e :: answers => (.error e, ⟨plaintext, answers⟩)

/-- A file object behind a `coro_file *`: `raw` is what `::read` finds on its descriptor, and `ssl`
    what `SSL_read` makes of it.  `bodies` is a history variable. -/
structure FileObject where
  cls : FileClass
  raw : File
  ssl : SslStream
  bodies : List Body := []
deriving Repr

namespace FileObject

/-- `read (&buffer[0], length)` in `coro_file::read (std::string &)`. -/
def read (o : FileObject) (length : Nat) : Except Errno Bytes × FileObject :=
  match callThrough o.cls .read [.charPtr, .sizeT] with
  | some .sslRead =>
    let r := SslStream.readLoop length o.ssl.plaintext o.ssl.answers
    (r.1, { o with ssl := r.2, bodies := o.bodies ++ [.sslRead] })
  | _ =>
    let r := CoroFile.read o.raw length
    (r.1, { o with raw := r.2, bodies := o.bodies ++ [.fileRead] })

instance : CoroFile FileObject where
  read := read

/-- Bytes have been taken off the descriptor with `::read`. -/
def ReadRaw (o : FileObject) : Prop := .fileRead ∈ o.bodies

/-- The next read takes bytes off the descriptor, if that has not happened before. -/
def Raw (o : FileObject) : Prop := o.cls = .coroSsl ∨ o.ReadRaw

theorem read_raw {o : FileObject} (h : o.Raw) (length : Nat) : (o.read length).2.ReadRaw := by
  rcases o with ⟨cls, raw, ssl, bodies⟩
  rcases h with hcls | hread
  · obtain rfl : cls = .coroSsl := hcls
    exact List.mem_append_right _ (.head _)
  · unfold read
    split <;> exact List.mem_append_left _ hread

/-- The next call that reads takes bytes off the descriptor, if that has not happened before. -/
def WillReadRaw (reads : Prop) (o : FileObject) : Prop := reads ∧ o.Raw ∨ o.ReadRaw

theorem WillReadRaw.raw {reads : Prop} {o : FileObject} (h : WillReadRaw reads o) : o.Raw := by
  cases h with
  | inl h => exact h.2
  | inr h => exact .inr h

-- A read into a string is one of the object, unless it asks for more than a vector holds.
theorem readString_raw {o : FileObject} {length : Nat} (h : WillReadRaw (length ≤ maxSize) o) :
    (CoroFile.readString o length).2.ReadRaw := by
  have hread : (CoroFile.read o length).2.ReadRaw := read_raw h.raw length
  unfold CoroFile.readString
  split
  · rename_i hgt
    cases h with
    | inl h => exact absurd h.1 (Nat.not_le.mpr hgt)
    | inr h => exact h
  · split
    · rename_i e o' hs
      rw [hs] at hread
      exact hread
    · rename_i s o' hs
      rw [hs] at hread
      exact hread

end FileObject

/-! ## Sequences of `get` and `read_exact` -/

/-- The calls of `coro_buffer` that read. -/
inductive BufferRead where
  | getList (delim : Delim)
  | get (delim : Delim)
  | readExact (nbytes : Nat)
  | readExactString (nbytes : Nat)
deriving DecidableEq, Repr

namespace BufferRead

def op : BufferRead → BufferOp
  | .getList delim => .getList delim
  | .get delim => .get delim
  | .readExact nbytes => .readExact nbytes
  | .readExactString nbytes => .readExactString nbytes

/-- With nothing left over the call makes no read: a `read_exact` of no bytes, or one into a string of
    more than a vector holds. -/
def MakesNoRead : BufferRead → Prop
  | .getList _ | .get _ => False
  | .readExact nbytes => nbytes = 0
  | .readExactString nbytes => nbytes = 0 ∨ maxSize < nbytes

instance (call : BufferRead) : Decidable call.MakesNoRead :=
  match call with
  | .getList _ | .get _ => inferInstanceAs (Decidable False)
  | .readExact nbytes => inferInstanceAs (Decidable (nbytes = 0))
  | .readExactString nbytes => inferInstanceAs (Decidable (nbytes = 0 ∨ maxSize < nbytes))

/-- Make the calls in a row: what each returned or threw, with the bytes it handed over, and the
    buffer afterwards. -/
def outcome {F : Type} [CoroFile F] : List BufferRead → Nat → CoroBuffer F →
    Option (List (Except ReadError Ret × Bytes) × CoroBuffer F)
  | [], _, b => some ([], b)
  | call :: calls, fuel, b =>
    (call.op.exec fuel b).bind fun r =>
      (outcome calls fuel r.left).map fun o => ((r.ret, r.bytes) :: o.1, o.2)

/-- The calls come back over both files, with the same results, and every read of the object has
    gone through `coro_ssl::read`. -/
def Substitutable (calls : List BufferRead) (plain : File) (o : FileObject) : Prop :=
  ∃ rs b b', Yields (outcome calls · (.create plain)) (rs, b) ∧
    Yields (outcome calls · (.create o)) (rs, b') ∧ ∀ body ∈ b'.file.bodies, body = .sslRead

section Raw

open FileObject

variable {b b' : CoroBuffer FileObject} {fuel : Nat}

theorem fill_raw (h : WillReadRaw (b.buffer = []) b.file) : b.fill.2.file.ReadRaw := by
  have hread := readString_raw (h.imp_left fun h => ⟨(by decide : 8192 ≤ maxSize), h.2⟩)
  unfold CoroBuffer.fill
  by_cases hempty : b.buffer.length = 0
  · rw [if_pos hempty]
    cases hs : CoroFile.readString b.file 8192 with
    | mk ret f =>
      rw [hs] at hread
      cases ret <;> exact hread
  · rw [if_neg hempty]
    cases h with
    | inl h => exact absurd (by rw [h.1]; rfl) hempty
    | inr h => exact h

theorem getList_raw {delim : Delim} {r : Ended UInt8 ReadError (CoroBuffer FileObject) Bool}
    (h : WillReadRaw (b.buffer = []) b.file) (hr : b.getList delim fuel = some r) :
    r.left.file.ReadRaw := by
  apply run_keeps (P := fun r : Ended UInt8 ReadError (CoroBuffer FileObject) Bool => r.left.file.ReadRaw)
    (I := fun st => WillReadRaw (st.b.buffer = []) st.b.file) ?_ h hr
  intro st hst
  have hfill := fill_raw hst
  unfold CoroBuffer.getBody
  cases hf : st.b.fill with
  | mk ret b' =>
    rw [hf] at hfill
    cases ret with
    | error e => exact hfill
    | ok closed =>
      cases closed with
      | true => exact hfill
      | false =>
        dsimp only
        cases scan delim.val st.matched 0 b'.buffer with
        | found i => exact hfill
        | passed matched => exact .inr hfill

theorem get_raw {delim : Delim} {r : Ended UInt8 ReadError (CoroBuffer FileObject) Bool}
    (h : WillReadRaw (b.buffer = []) b.file) (hr : b.get delim fuel = some r) :
    r.left.file.ReadRaw := by
  rcases Option.map_eq_some_iff.mp hr with ⟨r', hr', rfl⟩
  have hleft := getList_raw h hr'
  cases hret : r'.ret with
  | ok closed => exact hleft
  | error e => exact hleft

theorem fileReadExact_raw {o : FileObject} {nbytes : Nat} {block_size : UInt32}
    {r : Ended UInt8 ReadError FileObject Unit} (h : WillReadRaw (nbytes ≠ 0) o)
    (hr : CoroFile.readExact fuel nbytes block_size o = some r) : r.left.ReadRaw := by
  apply run_keeps (P := fun r : Ended UInt8 ReadError FileObject Unit => r.left.ReadRaw)
    (I := fun st => WillReadRaw (st.nbytes ≠ 0) st.file) ?_ h hr
  intro st hst
  have hread := readString_raw (o := st.file)
    (hst.imp_left fun h => ⟨CoroFile.block_size_le st.nbytes block_size, h.2⟩)
  unfold CoroFile.readExactBody
  by_cases hzero : st.nbytes = 0
  · rw [if_pos hzero]
    cases hst with
    | inl hst => exact absurd hzero hst.1
    | inr hst => exact hst
  · rw [if_neg hzero]
    cases hs : CoroFile.readString st.file (min st.nbytes block_size.toNat) with
    | mk ret o' =>
      rw [hs] at hread
      cases ret with
      | error e => exact hread
      | ok s => exact .inr hread

theorem fileReadExactString_raw {o : FileObject} {nbytes : Nat}
    {r : Ended UInt8 ReadError FileObject Unit}
    (h : WillReadRaw (nbytes ≠ 0 ∧ nbytes ≤ maxSize) o)
    (hr : CoroFile.readExactString fuel nbytes o = some r) : r.left.ReadRaw := by
  apply run_keeps (P := fun r : Ended UInt8 ReadError FileObject Unit => r.left.ReadRaw)
    (I := fun st => WillReadRaw (st.nbytes ≠ 0 ∧ st.nbytes ≤ maxSize) st.file) ?_ h hr
  intro st hst
  have hread := readString_raw (o := st.file) (hst.imp_left fun h => ⟨h.1.2, h.2⟩)
  unfold CoroFile.readExactStringBody
  by_cases hzero : st.nbytes = 0
  · rw [if_pos hzero]
    cases hst with
    | inl hst => exact absurd hzero hst.1.1
    | inr hst => exact hst
  · rw [if_neg hzero]
    cases hs : CoroFile.readString st.file st.nbytes with
    | mk ret o' =>
      rw [hs] at hread
      cases ret with
      | error e => exact hread
      | ok s =>
        dsimp only
        split
        · exact hread
        · exact .inr hread

-- A `read_exact` of some bytes with an empty leftover goes to the file.
theorem leftover_raw {nbytes : Nat} {r : Ended UInt8 ReadError (CoroBuffer FileObject) Unit}
    {more : Option (Ended UInt8 ReadError (CoroBuffer FileObject) Unit)}
    (h : WillReadRaw (b.buffer = [] ∧ nbytes ≠ 0) b.file)
    (hmore : sizeSub nbytes b.buffer.length ≠ 0 → more = some r → r.left.file.ReadRaw)
    (hr : (if b.buffer.length > nbytes then
        some ⟨.ok (), [b.buffer.take nbytes], { b with buffer := b.buffer.drop nbytes }⟩
      else if b.buffer.length = nbytes then some ⟨.ok (), [b.buffer], { b with buffer := [] }⟩
      else more) = some r) : r.left.file.ReadRaw := by
  have hread : nbytes ≤ b.buffer.length → b.file.ReadRaw := by
    intro hle
    cases h with
    | inl h =>
      rw [h.1.1] at hle
      exact absurd (Nat.le_zero.mp hle) h.1.2
    | inr h => exact h
  split at hr
  · rw [← Option.some.inj hr]
    exact hread (by omega)
  · split at hr
    · rw [← Option.some.inj hr]
      exact hread (by omega)
    · apply hmore ?_ hr
      rw [sizeSub_of_le (by omega)]
      omega

theorem readExact_raw {nbytes : Nat} {r : Ended UInt8 ReadError (CoroBuffer FileObject) Unit}
    (h : WillReadRaw (b.buffer = [] ∧ nbytes ≠ 0) b.file) (hr : b.readExact nbytes fuel = some r) :
    r.left.file.ReadRaw := by
  apply leftover_raw h ?_ hr
  intro hne hmore
  rcases b.consumeBuffer_eq with ⟨pieces, hconsume, -⟩
  rw [hconsume] at hmore
  rcases Option.map_eq_some_iff.mp hmore with ⟨r', hr', rfl⟩
  exact fileReadExact_raw (.inl ⟨hne, h.raw⟩) hr'

theorem readExactString_raw {nbytes : Nat} {r : Ended UInt8 ReadError (CoroBuffer FileObject) Unit}
    (h : WillReadRaw (b.buffer = [] ∧ nbytes ≠ 0 ∧ nbytes ≤ maxSize) b.file)
    (hr : b.readExactString nbytes fuel = some r) : r.left.file.ReadRaw := by
  apply leftover_raw (h.imp_left fun h => ⟨⟨h.1.1, h.1.2.1⟩, h.2⟩) ?_ hr
  intro hne hmore
  rcases Option.map_eq_some_iff.mp hmore with ⟨r', hr', rfl⟩
  apply fileReadExactString_raw (h.imp_left fun h => ⟨⟨hne, ?_⟩, h.2⟩) hr'
  rw [h.1.1, List.length_nil, sizeSub_of_le (Nat.zero_le _)]
  exact h.1.2.2

theorem exec_raw {call : BufferRead} {r : Ended UInt8 ReadError (CoroBuffer FileObject) Ret}
    (h : WillReadRaw (b.buffer = [] ∧ ¬call.MakesNoRead) b.file)
    (hr : call.op.exec fuel b = some r) : r.left.file.ReadRaw := by
  have hempty : WillReadRaw (b.buffer = []) b.file := h.imp_left fun h => ⟨h.1.1, h.2⟩
  cases call with
  | getList delim =>
    rcases Option.map_eq_some_iff.mp hr with ⟨r', hr', rfl⟩
    exact getList_raw hempty hr'
  | get delim =>
    rcases Option.map_eq_some_iff.mp hr with ⟨r', hr', rfl⟩
    exact get_raw hempty hr'
  | readExact nbytes =>
    rcases Option.map_eq_some_iff.mp hr with ⟨r', hr', rfl⟩
    exact readExact_raw h hr'
  | readExactString nbytes =>
    rcases Option.map_eq_some_iff.mp hr with ⟨r', hr', rfl⟩
    refine readExactString_raw (h.imp_left fun h => ⟨⟨h.1.1, fun hzero => ?_, ?_⟩, h.2⟩) hr'
    · exact h.1.2 (.inl hzero)
    · exact Nat.le_of_not_lt fun hgt => h.1.2 (.inr hgt)

end Raw

/-- What such a call returns or throws. -/
def retOfNoRead : BufferRead → Except ReadError Ret
  | .readExactString nbytes => if maxSize < nbytes then .error .lengthError else .ok .unit
  | _ => .ok .unit

-- With an empty leftover it does nothing else.
theorem exec_noRead {F : Type} [CoroFile F] {call : BufferRead} (h : call.MakesNoRead)
    (fuel : Nat) (f : F) :
    call.op.exec (fuel + 1) (.create f) = some ⟨call.retOfNoRead, [[]], .create f⟩ := by
  cases call with
  | getList delim => cases h
  | get delim => cases h
  | readExact nbytes =>
    obtain rfl : nbytes = 0 := h
    rfl
  | readExactString nbytes =>
    rcases h with rfl | hgt
    · rfl
    · have hne : ¬nbytes = 0 := by omega
      have hbody : CoroFile.readExactStringBody ⟨nbytes, [], f⟩ =
          .inr ⟨.error .lengthError, [], f⟩ := by
        unfold CoroFile.readExactStringBody
        rw [if_neg hne, CoroFile.readString_of_gt hgt]
      have hrun : CoroFile.readExactString (fuel + 1) nbytes f = some ⟨.error .lengthError, [], f⟩ :=
        run_succ_inr hbody fuel
      have hne' : ¬0 = nbytes := fun hzero => hne hzero.symm
      unfold retOfNoRead op BufferOp.exec CoroBuffer.readExactString CoroBuffer.create
      simp only [List.length_nil, gt_iff_lt, Nat.not_lt_zero, if_false, hne',
        sizeSub_of_le (Nat.zero_le nbytes), Nat.sub_zero, hrun, hgt, if_true]
      rfl

theorem outcome_noRead {F : Type} [CoroFile F] {calls : List BufferRead}
    (h : ∀ call ∈ calls, call.MakesNoRead) (fuel : Nat) (f : F) :
    outcome calls (fuel + 1) (.create f) =
      some (calls.map fun call => (call.retOfNoRead, []), .create f) := by
  induction calls with
  | nil => rfl
  | cons call calls ih =>
    have hrest := ih fun c hc => h c (List.mem_cons_of_mem _ hc)
    unfold outcome
    rw [exec_noRead (h call (.head _)), Option.bind_some, hrest]
    rfl

open FileObject in
-- The first call that makes a read reads from the descriptor.
theorem outcome_raw {calls : List BufferRead} {fuel : Nat} {b : CoroBuffer FileObject}
    {o : List (Except ReadError Ret × Bytes) × CoroBuffer FileObject}
    (h : (∃ call ∈ calls, ¬call.MakesNoRead) ∧ b = .create b.file ∧ b.file.Raw ∨ b.file.ReadRaw)
    (ho : outcome calls (fuel + 1) b = some o) : o.2.file.ReadRaw := by
  induction calls generalizing b o with
  | nil =>
    rcases h with ⟨⟨call, hmem, -⟩, -⟩ | h
    · exact absurd hmem List.not_mem_nil
    · rw [← Option.some.inj ho]
      exact h
  | cons call calls ih =>
    rcases Option.bind_eq_some_iff.mp ho with ⟨r, hr, hrest⟩
    rcases Option.map_eq_some_iff.mp hrest with ⟨o', ho', rfl⟩
    apply ih ?_ ho'
    rcases h with ⟨⟨c, hmem, hc⟩, hb, hraw⟩ | h
    · by_cases hnone : call.MakesNoRead
      · rw [hb, exec_noRead hnone] at hr
        obtain rfl := Option.some.inj hr
        refine .inl ⟨⟨c, ?_, hc⟩, rfl, hraw⟩
        cases hmem with
        | head => exact absurd hnone hc
        | tail _ htail => exact htail
      · have hempty : b.buffer = [] := by rw [hb]; rfl
        exact .inr (exec_raw (.inl ⟨⟨hempty, hnone⟩, hraw⟩) hr)
    · exact .inr (exec_raw (.inr h) hr)

/-- A TLS socket stands in for a plain one under `coro_buffer` exactly where no call makes a read:
    for all the bytes on the descriptor and all answers of `SSL_read`, the calls come back with the
    results of a plain file that holds the plaintext, and every read goes through
    `coro_ssl::read`, if and only if each of them is a `read_exact` of no bytes, or one into a string
    that throws before it reads. -/
theorem substitutable_iff (plaintext : Bytes) (script : List Answer) (raw : File)
    (answers : List SslAnswer) (calls : List BufferRead) :
    Substitutable calls ⟨plaintext, script⟩ ⟨.coroSsl, raw, ⟨plaintext, answers⟩, []⟩ ↔
      ∀ call ∈ calls, call.MakesNoRead := by
  constructor
  · rintro ⟨rs, b, b', -, ⟨n, hy⟩, hssl⟩ call hcall
    by_contra hreads
    have hread : b'.file.ReadRaw :=
      outcome_raw (.inl ⟨⟨call, hcall, hreads⟩, rfl, .inl rfl⟩) (hy (n + 1) (Nat.le_succ n))
    cases hssl _ hread
  · intro hnone
    have hyields : ∀ {F : Type} [CoroFile F] (f : F), Yields (outcome calls · (.create f))
        (calls.map fun call => (call.retOfNoRead, []), .create f) :=
      fun f => ⟨1, fun | k + 1, _ => outcome_noRead hnone k f⟩
    refine ⟨_, _, _, hyields _, hyields _, ?_⟩
    intro body hbody
    exact absurd hbody List.not_mem_nil

/-- A record of TLS application data: type, version, length, and what encrypts `"hi\r\n"`. -/
def record : Bytes := [23, 3, 3, 0, 8, 91, 7, 200, 66, 18, 99, 250, 4]

/-- The peer sends the line `"hi\r\n"`: `get` over the plain file answers it, and over the TLS socket
    it answers the record, up to the end of the stream. -/
theorem get_answers_record :
    ¬Substitutable [.get ⟨[13, 10], by decide⟩] ⟨[104, 105, 13, 10], []⟩
        ⟨.coroSsl, ⟨record, []⟩, ⟨[104, 105, 13, 10], []⟩, []⟩ ∧
      (outcome [.get ⟨[13, 10], by decide⟩] 9 (.create (File.mk [104, 105, 13, 10] []))).map (·.1) =
        some [(.ok (.closed false), [104, 105, 13, 10])] ∧
      (outcome [.get ⟨[13, 10], by decide⟩] 9
          (.create (FileObject.mk .coroSsl ⟨record, []⟩ ⟨[104, 105, 13, 10], []⟩ []))).map (·.1) =
        some [(.ok (.closed true), record)] := by
  refine ⟨?_, rfl, rfl⟩
  rw [substitutable_iff]
  intro hnone
  exact hnone _ (.head _)

end BufferRead

end Coropp
