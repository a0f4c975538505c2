import Coropp.File
import Coropp.Lib.Framing

/-!
# The protocol list of `coro_ssl_ctx`

`set_next_protos` appends to `_next_protos` in the format that TLS sends: a byte with the length of a
name, and the name.  The length is cast to a `char`, however long the name is.
-/

namespace Coropp

open Framing

/-- `_next_protos`, and whether `next_protos_server_callback` has been registered. -/
structure CoroSslCtx where
  nextProtos : Bytes := []
  advertises : Bool := false
deriving DecidableEq, Repr

/-- The length byte of a name: `(char) i->size()`, which the peer reads as unsigned. -/
def lengthByte : Header UInt8 where
  put := UInt8.ofNat
  get := UInt8.toNat

namespace CoroSslCtx

/-- `set_next_protos`. -/
def setNextProtos (ctx : CoroSslCtx) (next_protos : List Bytes) : CoroSslCtx :=
  let ctx := next_protos.foldl
    (fun ctx i => { ctx with nextProtos := ctx.nextProtos ++ [lengthByte.put i.length] ++ i }) ctx
  { ctx with advertises := true }

/-- The context after the calls `calls`. -/
def afterCalls (calls : List (List Bytes)) : CoroSslCtx := calls.foldl setNextProtos {}

/-- `next_protos_server_callback`: `*outlen` is an `unsigned int`. -/
def advertised (ctx : CoroSslCtx) : Bytes :=
  ctx.nextProtos.take (ctx.nextProtos.length % 0x100000000)

theorem setNextProtos_eq (ctx : CoroSslCtx) (next_protos : List Bytes) :
    ctx.setNextProtos next_protos =
      ⟨ctx.nextProtos ++ lengthByte.encode next_protos, true⟩ := by
  unfold setNextProtos
  dsimp only
  induction next_protos generalizing ctx with
  | nil => rw [Header.encode_nil, List.append_nil]; rfl
  | cons i next_protos ih =>
    rw [List.foldl_cons, ih, Header.encode_cons]
    simp only [List.append_assoc, List.cons_append, List.nil_append]

-- Each call appends to what the calls before it have set.
theorem foldl_setNextProtos (ctx : CoroSslCtx) (calls : List (List Bytes)) :
    (calls.foldl setNextProtos ctx).nextProtos =
      ctx.nextProtos ++ lengthByte.encode calls.flatten := by
  induction calls generalizing ctx with
  | nil => exact (List.append_nil _).symm
  | cons next_protos calls ih =>
    rw [List.foldl_cons, ih, setNextProtos_eq, List.flatten_cons, Header.encode_append,
      List.append_assoc]

theorem afterCalls_nextProtos (calls : List (List Bytes)) :
    (afterCalls calls).nextProtos = lengthByte.encode calls.flatten :=
  foldl_setNextProtos {} calls

theorem lengthByte_fits_iff (name : Bytes) : lengthByte.Fits name ↔ name.length ≤ 255 := by
  show (UInt8.ofNat name.length).toNat = name.length ↔ _
  rw [UInt8.toNat_ofNat']
  omega

-- The callback hands out all of a list that is not longer than an `unsigned int` can say.
theorem advertised_eq {ctx : CoroSslCtx} (h : ctx.nextProtos.length < 0x100000000) :
    ctx.advertised = ctx.nextProtos := by
  rw [advertised, Nat.mod_eq_of_lt h, List.take_length]

/-- What the calls have set is read back from `_next_protos` if and only if no name is longer than a
    byte can say. -/
theorem nextProtos_decode_iff (calls : List (List Bytes)) :
    lengthByte.decode (afterCalls calls).nextProtos = some calls.flatten ↔
      ∀ next_protos ∈ calls, ∀ name ∈ next_protos, name.length ≤ 255 := by
  rw [afterCalls_nextProtos, Header.decode_encode_iff]
  constructor
  · intro hall next_protos hcall name hname
    exact (lengthByte_fits_iff name).mp (hall name (List.mem_flatten_of_mem hcall hname))
  · intro hall name hmem
    rcases List.mem_flatten.mp hmem with ⟨next_protos, hcall, hname⟩
    exact (lengthByte_fits_iff name).mpr (hall next_protos hcall name hname)

/-- One name of 256 bytes: its length byte is 0. -/
theorem nextProtos_misframed :
    lengthByte.decode (afterCalls [[List.replicate 256 97]]).nextProtos ≠
      some [List.replicate 256 97] := by
  have hunfit : ¬lengthByte.Fits (List.replicate 256 97) := by
    rw [lengthByte_fits_iff, List.length_replicate]
    decide
  have hset : (afterCalls [[List.replicate 256 97]]).nextProtos =
      lengthByte.frame (List.replicate 256 97) ++ [] := afterCalls_nextProtos _
  rw [hset]
  exact Header.decode_frame_unfit hunfit [] []

end CoroSslCtx

end Coropp
