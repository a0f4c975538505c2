import Coropp.BufferCuts

/-!
# Where `read_exact` ends

The consumer and the list form take a read of zero bytes for progress, so at the end of the stream
they go round for ever.  The string form looks at the count; but it asks for all the bytes at once,
and throws where a vector does not hold as many.
-/

namespace Coropp

open Loops Source

/-- The call ends with the next `nbytes` of the stream handed over, or with all there are. -/
def Delivers {S : Type} [Source UInt8 S] (call : Nat → S → Option (Ended UInt8 ReadError S Unit)) (s : S)
    (nbytes : Nat) : Prop :=
  ∃ r, Yields (call · s) r ∧ r.ret = .ok () ∧ r.bytes = (rest s).take nbytes

theorem delivers_of_ends {S : Type} [Source UInt8 S]
    {call : Nat → S → Option (Ended UInt8 ReadError S Unit)} {s : S} {nbytes : Nat} (hcalm : Calm s)
    (h : Ends call s ⟨(), (rest s).take nbytes, (rest s).drop nbytes⟩) :
    Delivers call s nbytes := by
  rcases h with ⟨r, hy, hmeets⟩
  rcases hmeets.calm hcalm with ⟨-, hret⟩
  exact ⟨r, hy, hret, (hmeets.ok _ hret).2.1⟩

theorem not_delivers {S : Type} [Source UInt8 S]
    {call : Nat → S → Option (Ended UInt8 ReadError S Unit)} {s : S} {nbytes : Nat}
    (h : ∀ fuel, call fuel s = none) : ¬Delivers call s nbytes :=
  fun ⟨r, hy, _⟩ => not_yields h r hy

theorem not_delivers_of_threw {S : Type} [Source UInt8 S]
    {call : Nat → S → Option (Ended UInt8 ReadError S Unit)} {s : S} {nbytes : Nat}
    {r : Ended UInt8 ReadError S Unit} {e : ReadError} (hy : Yields (call · s) r)
    (he : r.ret = .error e) : ¬Delivers call s nbytes := by
  rintro ⟨r', hy', hret, -⟩
  obtain rfl := hy.unique hy'
  cases he.symm.trans hret

theorem delivers_enough_iff {S : Type} [Source UInt8 S]
    {call : Nat → S → Option (Ended UInt8 ReadError S Unit)} {s : S} {nbytes : Nat} (hcalm : Calm s)
    (hends : nbytes ≤ (rest s).length →
      Ends call s ⟨(), (rest s).take nbytes, (rest s).drop nbytes⟩)
    (hforever : (rest s).length < nbytes → ∀ fuel, call fuel s = none) :
    Delivers call s nbytes ↔ nbytes ≤ (rest s).length := by
  constructor
  · intro h
    apply Nat.le_of_not_lt
    intro hgt
    exact not_delivers (hforever hgt) h
  · intro hle
    exact delivers_of_ends hcalm (hends hle)

section

variable {F : Type} [StreamFile F]

namespace CoroFile

-- More is asked for than the stream holds, and no read changes that.
theorem readExact_forever {nbytes : Nat} {block_size : UInt32} {f : F} (hcalm : Calm f)
    (hgt : (rest f).length < nbytes) (fuel : Nat) : readExact fuel nbytes block_size f = none := by
  apply run_forever (I := fun st : Exact F =>
    Calm st.file ∧ (rest st.file).length < st.nbytes) ?_ ⟨hcalm, hgt⟩
  rintro st ⟨hst, hlt⟩
  unfold readExactBody
  rw [if_neg (by omega)]
  cases hread : readString st.file (min st.nbytes block_size.toNat) with
  | mk ret f' =>
    cases ret with
    | error e => exact absurd hst (readString_error (block_size_le _ _) hread).2
    | ok s =>
      rcases readString_ok hread with ⟨hrest, hlen, -, hnext⟩
      have htotal := congrArg List.length hrest
      rw [List.length_append] at htotal
      have hleft : sizeSub st.nbytes s.length = st.nbytes - s.length := sizeSub_of_le (by omega)
      refine ⟨_, rfl, hnext hst, ?_⟩
      dsimp only
      omega

theorem readExact_delivers_iff {nbytes : Nat} {block_size : UInt32} {f : F} (hcalm : Calm f)
    (hblock : 0 < block_size) :
    Delivers (readExact · nbytes block_size) f nbytes ↔ nbytes ≤ (rest f).length :=
  delivers_enough_iff hcalm (readExact_ends hblock) (readExact_forever hcalm)

theorem readExactString_delivers_iff {nbytes : Nat} {f : F} (hcalm : Calm f) :
    Delivers (readExactString · nbytes) f nbytes ↔ nbytes ≤ maxSize := by
  constructor
  · intro h
    apply Nat.le_of_not_lt
    intro hgt
    exact not_delivers_of_threw (readExactString_throws hgt f) rfl h
  · intro hle
    exact delivers_of_ends hcalm (readExactString_ends hle f)

end CoroFile

namespace CoroBuffer

theorem readExact_forever {nbytes : Nat} {b : CoroBuffer F} (hcalm : Calm b)
    (hgt : (rest b).length < nbytes) (fuel : Nat) : b.readExact nbytes fuel = none := by
  rw [rest_eq, List.length_append] at hgt
  have hle : b.buffer.length ≤ nbytes := by omega
  rcases b.consumeBuffer_eq with ⟨pieces, hconsume, -⟩
  unfold readExact
  dsimp only
  rw [if_neg (by omega), if_neg (by omega), hconsume, sizeSub_of_le hle]
  dsimp only
  rw [CoroFile.readExact_forever (f := b.file) hcalm (by omega), Option.map_none]

theorem readExact_delivers_iff {nbytes : Nat} {b : CoroBuffer F} (hcalm : Calm b) :
    Delivers (readExact nbytes) b nbytes ↔ nbytes ≤ (rest b).length :=
  delivers_enough_iff hcalm readExact_ends (readExact_forever hcalm)

theorem readExactString_delivers_iff {nbytes : Nat} {b : CoroBuffer F} (hcalm : Calm b) :
    Delivers (readExactString nbytes) b nbytes ↔ nbytes ≤ maxSize + b.buffer.length := by
  constructor
  · intro h
    apply Nat.le_of_not_lt
    intro hgt
    exact not_delivers_of_threw (readExactString_throws hgt) rfl h
  · intro hle
    exact delivers_of_ends hcalm (readExactString_ends hle)

end CoroBuffer

end

/-- Over any reads of a stream: the string forms deliver the bytes that are there if and only if a
    vector holds as many as they ask the file for, and the other forms do if and only if there are as
    many as they are asked for. -/
theorem readExact_forms (buffer stream : Bytes) {script : List Answer}
    (h : ∀ e, .error e ∉ script) (nbytes : Nat) {block_size : UInt32} (hblock : 0 < block_size) :
    (Delivers (CoroFile.readExact · nbytes block_size) (File.mk stream script) nbytes ↔
        nbytes ≤ stream.length) ∧
      (Delivers (CoroFile.readExactList · nbytes block_size) (File.mk stream script) nbytes ↔
        nbytes ≤ stream.length) ∧
      (Delivers (CoroFile.readExactString · nbytes) (File.mk stream script) nbytes ↔
        nbytes ≤ maxSize) ∧
      (Delivers (CoroBuffer.readExact nbytes) (⟨⟨stream, script⟩, buffer⟩ : CoroBuffer File) nbytes ↔
        nbytes ≤ buffer.length + stream.length) ∧
      (Delivers (CoroBuffer.readExactString nbytes) (⟨⟨stream, script⟩, buffer⟩ : CoroBuffer File)
        nbytes ↔ nbytes ≤ maxSize + buffer.length) := by
  have hfile : Delivers (CoroFile.readExact · nbytes block_size) (File.mk stream script) nbytes ↔
      nbytes ≤ stream.length := CoroFile.readExact_delivers_iff h hblock
  refine ⟨hfile, hfile, CoroFile.readExactString_delivers_iff h, ?_,
    CoroBuffer.readExactString_delivers_iff h⟩
  rw [CoroBuffer.readExact_delivers_iff h, CoroBuffer.rest_eq, List.length_append]
  exact Iff.rfl

/-- Three bytes in two reads, after one that is left over. -/
theorem readExact_forms_three :
    (Delivers (CoroFile.readExact · 4 2)
        (File.mk [98, 99, 100] [.chunk 1 (by decide), .wouldBlock]) 4 ↔ 4 ≤ 3) ∧
      Delivers (CoroBuffer.readExact 4)
        (⟨⟨[98, 99, 100], [.chunk 1 (by decide), .wouldBlock]⟩, [97]⟩ : CoroBuffer File) 4 := by
  have hcalm : ∀ e, .error e ∉ ([.chunk 1 (by decide), .wouldBlock] : List Answer) := by simp
  rcases readExact_forms [97] [98, 99, 100] hcalm 4 (by decide : (0 : UInt32) < 2) with
    ⟨hconsumer, -, -, hbuffer, -⟩
  exact ⟨hconsumer, hbuffer.mpr (by decide)⟩

/-- Two bytes are asked for, and the stream ends after one. -/
theorem readExact_spins :
    (∀ fuel, CoroFile.readExact fuel 2 8000 (File.mk [97] []) = none) ∧
      ¬Delivers (CoroFile.readExact · 2 8000) (File.mk [97] []) 2 := by
  have hspins : ∀ fuel, CoroFile.readExact fuel 2 8000 (File.mk [97] []) = none :=
    CoroFile.readExact_forever (fun e => List.not_mem_nil) (by decide)
  exact ⟨hspins, not_delivers hspins⟩

end Coropp
