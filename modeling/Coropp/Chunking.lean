import Coropp.BufferCuts

/-!
# Reads into strings do not see how the stream was cut

Sequences of `get` and `read_exact` into strings, over two descriptors with the same bytes.  A call
that asks for more than a vector holds throws with the leftover appended to its string, and how much
is left over is a matter of the cut.
-/

namespace Coropp

open Loops Source

/-- A call with the string it is given. -/
inductive StringCall where
  /-- The string is cleared first. -/
  | get (delim : Delim)
  /-- Appends onto `s`. -/
  | readExact (nbytes : Nat) (s : Bytes)
deriving DecidableEq, Repr

namespace StringCall

/-- The pieces make up the string after the call; `get` returns the closed flag. -/
def exec {F : Type} [CoroFile F] (call : StringCall) (fuel : Nat) (b : CoroBuffer F) :
    Option (Ended UInt8 ReadError (CoroBuffer F) (Option Bool)) :=
  match call with
  | .get delim => (b.get delim fuel).map (Ended.map some)
  | .readExact nbytes s =>
    (b.readExactString nbytes fuel).map fun r => (r.map fun _ => none).after [s] id

/-- The flags and the strings of the calls, one after the other. -/
def results {F : Type} [CoroFile F] (calls : List StringCall) (fuel : Nat) (b : CoroBuffer F) :
    Option (List (Except ReadError (Option Bool) × Bytes)) :=
  answers exec fuel calls b

/-- A vector holds what is asked for. -/
def Fits : StringCall → Prop
  | .get _ => True
  | .readExact nbytes _ => nbytes ≤ maxSize

def cut : StringCall → Bytes → Cut UInt8 (Option Bool)
  | .get delim, xs => (getCut delim.val (Delim.start delim) xs).map some
  | .readExact nbytes s, xs => ⟨none, s ++ xs.take nbytes, xs.drop nbytes⟩

theorem exec_ends {F : Type} [StreamFile F] {call : StringCall} (h : call.Fits) (b : CoroBuffer F) :
    Ends call.exec b (call.cut (rest b)) := by
  cases call with
  | get delim => exact (CoroBuffer.get_ends delim b).map some
  | readExact nbytes s =>
    rcases CoroBuffer.readExactString_ends (b := b) (Nat.le_add_right_of_le h) with ⟨r, hy, hmeets⟩
    refine ⟨_, hy.map _, ?_⟩
    have hall := (hmeets.map fun _ => (none : Option Bool)).after
      (fun hcalm => hcalm) (fun _ => rfl) (fun _ hcalm => hcalm) [s]
    rw [List.flatten_singleton] at hall
    exact hall

-- Where no read throws, the results are those of the cuts of the bytes to come.
theorem results_expected {F : Type} [StreamFile F] {calls : List StringCall}
    (hfits : ∀ call ∈ calls, call.Fits) {b : CoroBuffer F} (h : Calm b) :
    Yields (results calls · b) (expected cut calls (rest b)) :=
  answers_expected (fun call hcall => exec_ends (hfits call hcall)) h

/-- Two ways of cutting a stream into reads give the same results, where a vector holds what each
    call asks for. -/
theorem chunking_independent (stream : Bytes) {script₁ script₂ : List Answer}
    (h₁ : ∀ e, .error e ∉ script₁) (h₂ : ∀ e, .error e ∉ script₂) {calls : List StringCall}
    (hfits : ∀ call ∈ calls, call.Fits) :
    ∃ rs, Yields (results calls · (.create (File.mk stream script₁))) rs ∧
      Yields (results calls · (.create (File.mk stream script₂))) rs := by
  have hcalm₁ : Calm (CoroBuffer.create (File.mk stream script₁)) := h₁
  have hcalm₂ : Calm (CoroBuffer.create (File.mk stream script₂)) := h₂
  refine ⟨expected cut calls stream, ?_, ?_⟩
  · exact results_expected hfits hcalm₁
  · exact results_expected hfits hcalm₂

/-- `"a\r\nb\r\n"`, cut between the two bytes of a delimiter and not at all. -/
theorem chunking_independent_crlf :
    ∃ rs,
      Yields (results [.get ⟨[13, 10], by decide⟩, .readExact 9 [33], .get ⟨[13], by decide⟩] ·
        (.create (File.mk [97, 13, 10, 98, 13, 10]
          [.chunk 2 (by decide), .wouldBlock, .chunk 1 (by decide)]))) rs ∧
      Yields (results [.get ⟨[13, 10], by decide⟩, .readExact 9 [33], .get ⟨[13], by decide⟩] ·
        (.create (File.mk [97, 13, 10, 98, 13, 10] []))) rs :=
  chunking_independent _ (fun e => by simp) (fun e => by simp) (by simp [Fits, maxSize])

/-- `"a\r\ncd"` cut before the 'c' and not at all, and a call for `(size_t) -1` bytes: `resize` throws
    with nothing appended, and with `"cd"`. -/
theorem chunking_dependent_oversized :
    let calls : List StringCall := [.get ⟨[13, 10], by decide⟩, .readExact 0xffffffffffffffff []]
    Yields (results calls · (.create (File.mk [97, 13, 10, 99, 100] [.chunk 3 (by decide)])))
        [(.ok (some false), [97, 13, 10]), (.error .lengthError, [])] ∧
      Yields (results calls · (.create (File.mk [97, 13, 10, 99, 100] [])))
        [(.ok (some false), [97, 13, 10]), (.error .lengthError, [99, 100])] ∧
      ¬∃ rs, Yields (results calls · (.create (File.mk [97, 13, 10, 99, 100]
          [.chunk 3 (by decide)]))) rs ∧
        Yields (results calls · (.create (File.mk [97, 13, 10, 99, 100] []))) rs := by
  intro calls
  have hcut : Yields (results calls · (.create (File.mk [97, 13, 10, 99, 100]
      [.chunk 3 (by decide)]))) [(.ok (some false), [97, 13, 10]), (.error .lengthError, [])] :=
    ⟨1, fun | k + 1, _ => rfl⟩
  have hwhole : Yields (results calls · (.create (File.mk [97, 13, 10, 99, 100] [])))
      [(.ok (some false), [97, 13, 10]), (.error .lengthError, [99, 100])] :=
    ⟨1, fun | k + 1, _ => rfl⟩
  refine ⟨hcut, hwhole, ?_⟩
  rintro ⟨rs, hy₁, hy₂⟩
  have hsame := (hcut.unique hy₁).trans (hwhole.unique hy₂).symm
  cases hsame

example :
    results [.get ⟨[13, 10], by decide⟩, .readExact 9 [33], .get ⟨[13], by decide⟩] 4
      (.create (File.mk [97, 13, 10, 98, 13, 10]
        [.chunk 2 (by decide), .wouldBlock, .chunk 1 (by decide)])) =
      some [(.ok (some false), [97, 13, 10]), (.ok none, [33, 98, 13, 10]), (.ok (some true), [])] :=
  rfl

end StringCall

end Coropp
