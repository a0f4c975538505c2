import Coropp.WaitSets
import Coropp.Lib.Transition

/-!
# Descriptors and the objects that hold them

The constructors of `coro_socket` and `coro_ssl`, their `accept`, `close` and the destructor of
`coro_file`, over a table of open descriptors.  A step is one of these calls, with what the kernel
and OpenSSL answer; an accept of a `coro_ssl` is two steps, since its handshake may block.
-/

namespace Coropp

/-- A `coro_socket *`. -/
abbrev ObjId := Nat

/-- What a descriptor was obtained from: `::socket`, `::accept`, or the rest of the program. -/
inductive Origin where
  | socket
  | accept
  | other
deriving DecidableEq, Repr

/-- What an open descriptor stands for.  `serial` tells apart those that have one number one after
    the other; `owner` is the object to which the call returned the descriptor. -/
structure OpenFile where
  serial : Nat
  origin : Origin
  owner : Option ObjId
  nonblocking : Bool
deriving DecidableEq, Repr

inductive SocketClass where
  | coroSocket
  | coroSsl
deriving DecidableEq, Repr

/-- Who can still name an object. -/
inductive Reach where
  | program
  /-- `conn` in a `coro_ssl::accept` that has not come back. -/
  | accepting
  | lost
deriving DecidableEq, Repr

structure SockObj where
  cls : SocketClass
  fd : Fd
  reach : Reach
deriving DecidableEq, Repr

/-- A call of `::close` by an object, and what was open under that number. -/
structure CloseCall where
  object : ObjId
  fd : Fd
  target : Option OpenFile
deriving DecidableEq, Repr

/-- The descriptor table, and the objects; `births` is the next new object.  `serial` and `closes`
    are history variables. -/
structure Descriptors where
  table : Fd → Option OpenFile := fun _ => none
  objects : ObjId → Option SockObj := fun _ => none
  births : ObjId := 0
  serial : Nat := 0
  closes : List CloseCall := []

/-- The answers in a constructor with the default `fd`. -/
inductive SocketResult where
  | failed
  /-- `::socket` answers `fd`; whether `fcntl (F_SETFL)` succeeds, and `SSL_new` with `SSL_set_fd`. -/
  | opened (fd : Fd) (fcntl : Bool) (ssl : Bool)
deriving DecidableEq, Repr

/-- The answers in one round of `accept`. -/
inductive AcceptResult where
  | failed
  /-- `::accept` answers `fd`; whether `SSL_new` and `SSL_set_fd` succeed for it. -/
  | opened (fd : Fd) (ssl : Bool)
deriving DecidableEq, Repr

inductive IoCall where
  | read
  | write
  | connect
deriving DecidableEq, Repr

inductive SockAct where
  | construct (cls : SocketClass) (r : SocketResult)
  | accept (o : ObjId) (r : AcceptResult)
  /-- `ssl_accept` of a pending `coro_ssl::accept` comes back, or throws. -/
  | handshake (o : ObjId) (ok : Bool)
  | io (o : ObjId) (c : IoCall)
  | close (o : ObjId)
  | destroy (o : ObjId)
  /-- The rest of the program opens and closes descriptors of its own. -/
  | otherOpen (fd : Fd) (nonblocking : Bool)
  | otherClose (fd : Fd)
deriving DecidableEq, Repr

namespace Descriptors

/-! ## System calls -/

/-- The kernel hands out any number that is free. -/
def Free (d : Descriptors) (fd : Fd) : Prop := 0 ≤ fd ∧ d.table fd = none

instance (d : Descriptors) (fd : Fd) : Decidable (d.Free fd) :=
  inferInstanceAs (Decidable (_ ∧ _))

/-- A new descriptor; those from `::socket` and `::accept` are in blocking mode. -/
def sysOpen (d : Descriptors) (fd : Fd) (origin : Origin) (owner : Option ObjId)
    (nonblocking : Bool) : Descriptors :=
  { d with
    table := Function.update d.table fd (some ⟨d.serial, origin, owner, nonblocking⟩)
    serial := d.serial + 1 }

/-- `::close (fd)` by the object `o`. -/
def sysClose (d : Descriptors) (o : ObjId) (fd : Fd) : Descriptors :=
  { d with
    table := Function.update d.table fd none
    closes := d.closes ++ [⟨o, fd, d.table fd⟩] }

/-- `fcntl (fd, F_SETFL)` with `O_NDELAY`. -/
def setNonblocking (d : Descriptors) (fd : Fd) : Descriptors :=
  { d with
    table := Function.update d.table fd ((d.table fd).map fun f => { f with nonblocking := true }) }

/-! ## `coro_file`, `coro_socket` and `coro_ssl` -/

/-- `coro_file() : _fd(0)`. -/
def defaultFd : Fd := 0

/-- `~coro_file` of the object `o` when its `_fd` is `fd`. -/
def fileDestructor (d : Descriptors) (o : ObjId) (fd : Fd) : Descriptors :=
  if fd ≠ -1 then d.sysClose o fd else d

/-- The object under construction is complete. -/
def addObject (d : Descriptors) (obj : SockObj) : Descriptors :=
  { d with objects := Function.update d.objects d.births (some obj), births := d.births + 1 }

/-- A constructor has thrown: of the object only the `coro_file` is complete, so only its destructor
    runs. -/
def abandon (d : Descriptors) (fd : Fd) : Descriptors :=
  { d.fileDestructor d.births fd with births := d.births + 1 }

/-- `coro_socket (-1)`, and on top of it `coro_ssl (ctx, -1)`. -/
def construct (d : Descriptors) (cls : SocketClass) : SocketResult → Option Descriptors
  -- `_fd` is still what coro_file() has made it
  | .failed => some (d.abandon defaultFd)
  | .opened fd fcntl ssl =>
    if d.Free fd then
      let d := d.sysOpen fd .socket (some d.births) false
      -- set_blocking (false)
      if fcntl then
        let d := d.setNonblocking fd
        if cls = .coroSsl ∧ ssl = false then some (d.abandon fd)
        else some (d.addObject ⟨cls, fd, .program⟩)
      else some (d.abandon fd)
    else none

/-- A round of `accept` on an object of class `cls`.  Where `fd > 0` fails it waits and comes round
    again, or throws, as `errno` says. -/
def acceptOn (d : Descriptors) (cls : SocketClass) : AcceptResult → Option Descriptors
  | .failed => some d
  | .opened fd ssl =>
    if d.Free fd then
      if fd > 0 then
        let d := d.sysOpen fd .accept (some d.births) false
        match cls with
        | .coroSocket => some (d.addObject ⟨.coroSocket, fd, .program⟩)
        | .coroSsl =>
          if ssl then some (d.addObject ⟨.coroSsl, fd, .accepting⟩) else some (d.abandon fd)
      else some (d.sysOpen fd .accept none false)
    else none

/-- The object that the program calls a member function of. -/
def object (d : Descriptors) (o : ObjId) : Option SockObj :=
  (d.objects o).filter fun obj => obj.reach = .program

def setObject (d : Descriptors) (o : ObjId) (obj : Option SockObj) : Descriptors :=
  { d with objects := Function.update d.objects o obj }

def step (d : Descriptors) : SockAct → Option Descriptors
  | .construct cls r => d.construct cls r
  | .accept o r => (d.object o).bind fun obj => d.acceptOn obj.cls r
  | .handshake o ok =>
    ((d.objects o).filter fun obj => obj.reach = .accepting).map fun obj =>
      d.setObject o (some { obj with reach := if ok then .program else .lost })
  | .io o _ => (d.object o).map fun _ => d
  | .close o =>
    (d.object o).map fun obj =>
      (d.sysClose o obj.fd).setObject o (some { obj with fd := -1 })
  | .destroy o =>
    (d.object o).map fun obj => (d.fileDestructor o obj.fd).setObject o none
  | .otherOpen fd nonblocking =>
    if d.Free fd then some (d.sysOpen fd .other none nonblocking) else none
  | .otherClose fd =>
    ((d.table fd).filter fun f => f.origin = .other).map fun _ =>
      { d with table := Function.update d.table fd none }

def Runs (acts : List SockAct) (d : Descriptors) : Prop :=
  Transition.Run (Transition.ofFun step) ({} : Descriptors) acts d

/-! ## What each step does -/

section Steps

variable {d d' : Descriptors} {o : ObjId} {fd : Fd}

theorem object_spec {obj : SockObj} (h : d.object o = some obj) :
    d.objects o = some obj ∧ obj.reach = .program := by
  rcases Option.filter_eq_some_iff.mp h with ⟨hget, hreach⟩
  exact ⟨hget, of_decide_eq_true hreach⟩

theorem step_accept {r : AcceptResult} (h : d.step (.accept o r) = some d') :
    ∃ obj, d.objects o = some obj ∧ obj.reach = .program ∧ d.acceptOn obj.cls r = some d' := by
  rcases Option.bind_eq_some_iff.mp h with ⟨obj, hobj, hacc⟩
  rcases object_spec hobj with ⟨hget, hreach⟩
  exact ⟨obj, hget, hreach, hacc⟩

theorem step_handshake {ok : Bool} (h : d.step (.handshake o ok) = some d') :
    ∃ obj, d.objects o = some obj ∧ obj.reach = .accepting ∧
      d' = d.setObject o (some { obj with reach := if ok then .program else .lost }) := by
  rcases Option.map_eq_some_iff.mp h with ⟨obj, hobj, rfl⟩
  rcases Option.filter_eq_some_iff.mp hobj with ⟨hget, hreach⟩
  exact ⟨obj, hget, of_decide_eq_true hreach, rfl⟩

theorem step_io {c : IoCall} (h : d.step (.io o c) = some d') : d' = d := by
  rcases Option.map_eq_some_iff.mp h with ⟨obj, -, rfl⟩
  rfl

theorem step_close (h : d.step (.close o) = some d') :
    ∃ obj, d.objects o = some obj ∧ obj.reach = .program ∧
      d' = (d.sysClose o obj.fd).setObject o (some { obj with fd := -1 }) := by
  rcases Option.map_eq_some_iff.mp h with ⟨obj, hobj, rfl⟩
  rcases object_spec hobj with ⟨hget, hreach⟩
  exact ⟨obj, hget, hreach, rfl⟩

theorem step_destroy (h : d.step (.destroy o) = some d') :
    ∃ obj, d.objects o = some obj ∧ obj.reach = .program ∧
      d' = (d.fileDestructor o obj.fd).setObject o none := by
  rcases Option.map_eq_some_iff.mp h with ⟨obj, hobj, rfl⟩
  rcases object_spec hobj with ⟨hget, hreach⟩
  exact ⟨obj, hget, hreach, rfl⟩

theorem step_otherOpen {nonblocking : Bool}
    (h : d.step (.otherOpen fd nonblocking) = some d') :
    d.Free fd ∧ d' = d.sysOpen fd .other none nonblocking := by
  simp only [step, Option.ite_none_right_eq_some] at h
  exact ⟨h.1, (Option.some.inj h.2).symm⟩

theorem step_otherClose (h : d.step (.otherClose fd) = some d') :
    ∃ f, d.table fd = some f ∧ f.origin = .other ∧
      d' = { d with table := Function.update d.table fd none } := by
  rcases Option.map_eq_some_iff.mp h with ⟨f, hf, rfl⟩
  rcases Option.filter_eq_some_iff.mp hf with ⟨hget, horigin⟩
  exact ⟨f, hget, of_decide_eq_true horigin, rfl⟩

/-- `fd` now stands for `f`. -/
def bound (d : Descriptors) (fd : Fd) (f : OpenFile) : Descriptors :=
  { d with table := Function.update d.table fd (some f), serial := d.serial + 1 }

theorem setNonblocking_sysOpen {origin : Origin} {owner : Option ObjId} :
    (d.sysOpen fd origin owner false).setNonblocking fd =
      d.bound fd ⟨d.serial, origin, owner, true⟩ := by
  simp only [setNonblocking, sysOpen, bound, Function.update_self, Function.update_idem,
    Option.map_some]

theorem Free.ne (h : d.Free fd) : fd ≠ -1 := by
  intro hfd
  have hnonneg := h.1
  rw [hfd] at hnonneg
  exact absurd hnonneg (by decide)

-- A constructor that gives up closes its own descriptor, and the table is what it was.
theorem abandon_bound {f : OpenFile} (hfree : d.Free fd) :
    (d.bound fd f).abandon fd =
      { d with
        closes := d.closes ++ [⟨d.births, fd, some f⟩]
        births := d.births + 1
        serial := d.serial + 1 } := by
  have htable : Function.update (Function.update d.table fd (some f)) fd none = d.table := by
    rw [Function.update_idem, ← hfree.2, Function.update_eq_self]
  unfold abandon fileDestructor
  rw [if_pos hfree.ne]
  unfold sysClose bound
  dsimp only
  rw [htable, Function.update_self]

-- A constructor with the default `fd` fails, or gives a new descriptor to its object.
theorem construct_cases {cls : SocketClass} {r : SocketResult} (h : d.construct cls r = some d') :
    r = .failed ∧ d' = d.abandon defaultFd ∨
      r ≠ .failed ∧ ∃ fd f, d.Free fd ∧ f.origin = .socket ∧ f.owner = some d.births ∧
        (d' = (d.bound fd f).abandon fd ∨
          f.nonblocking = true ∧ d' = (d.bound fd f).addObject ⟨cls, fd, .program⟩) := by
  cases r with
  | failed => exact .inl ⟨rfl, (Option.some.inj h).symm⟩
  | opened fd fcntl ssl =>
    simp only [construct, Option.ite_none_right_eq_some] at h
    rcases h with ⟨hfree, h⟩
    refine .inr ⟨by simp, fd, ?_⟩
    cases fcntl with
    | false =>
      obtain rfl := Option.some.inj h
      exact ⟨⟨d.serial, .socket, some d.births, false⟩, hfree, rfl, rfl, .inl rfl⟩
    | true =>
      simp only [if_true, setNonblocking_sysOpen] at h
      refine ⟨⟨d.serial, .socket, some d.births, true⟩, hfree, rfl, rfl, ?_⟩
      split at h
      · exact .inl (Option.some.inj h).symm
      · exact .inr ⟨rfl, (Option.some.inj h).symm⟩

-- An accept leaves everything as it is, loses the descriptor 0, or gives a new one to its object.
theorem acceptOn_cases {cls : SocketClass} {r : AcceptResult} (h : d.acceptOn cls r = some d') :
    d' = d ∧ r = .failed ∨
      d.Free 0 ∧ d' = d.sysOpen 0 .accept none false ∧ (∃ ssl, r = .opened 0 ssl) ∨
      ∃ fd f, d.Free fd ∧ f.origin = .accept ∧ f.owner = some d.births ∧ f.nonblocking = false ∧
        (∃ ssl, fd ≠ 0 ∧ r = .opened fd ssl) ∧
        (d' = (d.bound fd f).abandon fd ∨
          ∃ reach, reach ≠ .lost ∧ d' = (d.bound fd f).addObject ⟨cls, fd, reach⟩) := by
  cases r with
  | failed => exact .inl ⟨(Option.some.inj h).symm, rfl⟩
  | opened fd ssl =>
    simp only [acceptOn, Option.ite_none_right_eq_some] at h
    rcases h with ⟨hfree, h⟩
    by_cases hpos : fd > 0
    · rw [if_pos hpos] at h
      refine .inr (.inr ⟨fd, ⟨d.serial, .accept, some d.births, false⟩, hfree, rfl, rfl, rfl,
        ⟨ssl, Int.ne_of_gt hpos, rfl⟩, ?_⟩)
      cases cls with
      | coroSocket => exact .inr ⟨.program, by simp, (Option.some.inj h).symm⟩
      | coroSsl =>
        cases ssl with
        | true => exact .inr ⟨.accepting, by simp, (Option.some.inj h).symm⟩
        | false => exact .inl (Option.some.inj h).symm
    · rw [if_neg hpos] at h
      obtain rfl : fd = 0 := Int.le_antisymm (Int.not_lt.mp hpos) hfree.1
      exact .inr (.inl ⟨hfree, (Option.some.inj h).symm, ssl, rfl⟩)

end Steps

end Descriptors

end Coropp
