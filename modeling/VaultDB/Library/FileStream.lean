import VaultDB.Library.Codec

/-! # Binary file streams with state bits

A model of the parts of `std::ifstream` and `std::ofstream` that binary file
code relies on. An input stream has a get position and the bits `eofbit` and
`failbit`: a short `read` sets both, and from then on every further `read` and
`peek` does nothing. An output stream may refuse to open, or stop accepting
bytes after any number of them; from then on every `write` does nothing.
-/

namespace FileStream

/-! ## Input -/

/-- A file opened for reading. -/
structure IFStream where
  content : List UInt8
  pos : Nat
  eofbit : Bool
  failbit : Bool
deriving Repr, DecidableEq

namespace IFStream

/-- A stream just opened on a file. -/
def openFile (content : List UInt8) : IFStream := ⟨content, 0, false, false⟩

def good (s : IFStream) : Bool := !s.eofbit && !s.failbit

/-- `read(buf, n)`: the bytes that were there. Fewer than `n` set both bits; on
a stream that is not good nothing is read and `failbit` is set. -/
def read (s : IFStream) (n : Nat) : List UInt8 × IFStream :=
  if s.good then
    let bytes := (s.content.drop s.pos).take n
    if bytes.length < n then
      (bytes, { s with pos := s.pos + bytes.length, eofbit := true, failbit := true })
    else (bytes, { s with pos := s.pos + n })
  else ([], { s with failbit := true })

/-- A string of `n` zero bytes with `read(buf, n)` done over it: what was not
read stays zero. -/
def readString (s : IFStream) (n : Nat) : List UInt8 × IFStream :=
  let (bytes, s') := s.read n
  (bytes ++ List.replicate (n - bytes.length) 0, s')

/-- `peek()`: the next byte, or `none` for `EOF`. -/
def peek (s : IFStream) : Option UInt8 × IFStream :=
  if s.good then
    match s.content[s.pos]? with
    | some b => (some b, s)
    | none => (none, { s with eofbit := true })
  else (none, { s with failbit := true })

/-- `seekg(off)` from the beginning. A negative offset fails. -/
def seekg (s : IFStream) (off : Int) : IFStream :=
  if s.failbit then { s with eofbit := false }
  else if off < 0 then { s with eofbit := false, failbit := true }
  else { s with eofbit := false, pos := off.toNat }

/-- `seekg(n, cur)` forward; the position may pass the end of the file. -/
def seekgCur (s : IFStream) (n : Nat) : IFStream :=
  if s.failbit then { s with eofbit := false }
  else { s with eofbit := false, pos := s.pos + n }

/-- `tellg()`: `-1` on a failed stream. -/
def tellg (s : IFStream) : Int := if s.failbit then -1 else s.pos

/-- The stream is good and the bytes before it are `r`. -/
structure At (s : IFStream) (r : List UInt8) : Prop where
  good : s.good = true
  rest : s.content.drop s.pos = r

/-- Where a reading loop stands: before the bytes `r`, or failed, which a loop
guarded by `peek` cannot tell from the end of the file. -/
def Before (s : IFStream) (r : List UInt8) : Prop :=
  s.At r ∨ (s.failbit = true ∧ r = [])

theorem at_openFile (content : List UInt8) : (openFile content).At content :=
  ⟨rfl, rfl⟩

theorem At.failbit {s : IFStream} {r : List UInt8} (h : s.At r) : s.failbit = false := by
  have hgood := h.good
  unfold IFStream.good at hgood
  simp at hgood
  exact hgood.2

theorem good_false_of_failbit {s : IFStream} (h : s.failbit = true) : s.good = false := by
  unfold good
  simp [h]

theorem At.read_all {s : IFStream} {r : List UInt8} (h : s.At r) {n : Nat} (hn : n ≤ r.length) :
    (s.read n).1 = r.take n ∧ (s.read n).2.At (r.drop n) ∧
      (s.read n).2.pos = s.pos + n ∧ (s.read n).2.content = s.content := by
  unfold read
  simp only [h.good, if_true, h.rest]
  have hlen : ¬ (r.take n).length < n := by
    rw [List.length_take]
    omega
  simp only [hlen, if_false]
  refine ⟨trivial, ⟨?_, ?_⟩, trivial, trivial⟩
  · exact h.good
  · show s.content.drop (s.pos + n) = r.drop n
    rw [← h.rest, List.drop_drop]

theorem At.read_short {s : IFStream} {r : List UInt8} (h : s.At r) {n : Nat} (hn : r.length < n) :
    (s.read n).1 = r ∧ (s.read n).2.failbit = true := by
  unfold read
  simp only [h.good, if_true, h.rest]
  have htake : r.take n = r := List.take_of_length_le (by omega)
  rw [htake]
  simp [hn]

theorem read_failed {s : IFStream} (h : s.failbit = true) (n : Nat) :
    (s.read n).2.failbit = true := by
  unfold read
  simp [good_false_of_failbit h]

/-- A field that is there in full is read, and the stream stays good. -/
theorem At.read_some {s : IFStream} {b x r : List UInt8} {n : Nat} (h : s.At b)
    (hx : Codec.takeExact n b = some (x, r)) :
    (s.read n).1 = x ∧ (s.read n).2.At r ∧ (s.read n).2.pos = s.pos + n ∧
      (s.read n).2.content = s.content := by
  rcases Codec.takeExact_eq_some_iff.mp hx with ⟨rfl, rfl⟩
  rcases h.read_all (n := x.length) (by simp) with ⟨h₁, h₂, h₃, h₄⟩
  simp only [List.take_left', List.drop_left'] at h₁ h₂
  exact ⟨h₁, h₂, h₃, h₄⟩

/-- A field cut short leaves the stream failed. -/
theorem At.read_none {s : IFStream} {b : List UInt8} {n : Nat} (h : s.At b)
    (hx : Codec.takeExact n b = none) : (s.read n).2.failbit = true :=
  (h.read_short (Codec.takeExact_eq_none_iff.mp hx)).2

theorem At.readString_some {s : IFStream} {b x r : List UInt8} {n : Nat} (h : s.At b)
    (hx : Codec.takeExact n b = some (x, r)) :
    (s.readString n).1 = x ∧ (s.readString n).2.At r ∧ (s.readString n).2.pos = s.pos + n ∧
      (s.readString n).2.content = s.content := by
  rcases h.read_some hx with ⟨h₁, h₂, h₃, h₄⟩
  have hlen := (Codec.takeExact_eq_some_iff.mp hx).2
  unfold IFStream.readString
  refine ⟨?_, h₂, h₃, h₄⟩
  simp [h₁, hlen]

theorem At.readString_none {s : IFStream} {b : List UInt8} {n : Nat} (h : s.At b)
    (hx : Codec.takeExact n b = none) : (s.readString n).2.failbit = true :=
  h.read_none hx

/-- A string is read over in full, or the stream is left failed and the bytes
that were missing stay zero. -/
theorem At.readString {s : IFStream} {r : List UInt8} (h : s.At r) (n : Nat) :
    (s.readString n).1 = r.take n ++ List.replicate (n - r.length) 0 ∧
      (s.readString n).2.Before (r.drop n) := by
  unfold IFStream.readString
  by_cases hn : n ≤ r.length
  · rcases h.read_all hn with ⟨h₁, h₂, -, -⟩
    have hzero : n - r.length = 0 := by omega
    refine ⟨?_, Or.inl h₂⟩
    simp only [h₁, List.length_take, hzero]
    congr 2
    omega
  · -- all that is left is read, and the string keeps its zeros behind it
    have hlt : r.length < n := by omega
    rcases h.read_short hlt with ⟨h₁, h₂⟩
    refine ⟨?_, Or.inr ⟨h₂, ?_⟩⟩
    · simp only [h₁]
      rw [List.take_of_length_le (by omega)]
    · exact List.drop_of_length_le (by omega)

theorem peek_nil {s : IFStream} (h : s.Before []) : s.peek.1 = none := by
  unfold peek
  rcases h with h | ⟨h, -⟩
  · -- the position is at the end of the content or past it
    have hend : s.content[s.pos]? = none := by
      have hlen := List.drop_eq_nil_iff.mp h.rest
      exact List.getElem?_eq_none hlen
    simp [h.good, hend]
  · simp [good_false_of_failbit h]

theorem At.peek_cons {s : IFStream} {b : UInt8} {r : List UInt8} (h : s.At (b :: r)) :
    s.peek = (some b, s) := by
  unfold peek
  have hget : s.content[s.pos]? = some b := by
    have hhead := congrArg List.head? h.rest
    rw [List.head?_drop] at hhead
    exact hhead
  simp [h.good, hget]

theorem Before.at_cons {s : IFStream} {b : UInt8} {r : List UInt8} (h : s.Before (b :: r)) :
    s.At (b :: r) := by
  rcases h with h | ⟨-, h⟩
  · exact h
  · cases h

theorem At.tellg {s : IFStream} {r : List UInt8} (h : s.At r) : s.tellg = s.pos := by
  unfold IFStream.tellg
  simp [h.failbit]

theorem At.seekgCur {s : IFStream} {r : List UInt8} (h : s.At r) (n : Nat) :
    (s.seekgCur n).At (r.drop n) := by
  unfold IFStream.seekgCur
  simp only [h.failbit]
  refine ⟨?_, ?_⟩
  · unfold IFStream.good
    simp
  · show s.content.drop (s.pos + n) = r.drop n
    rw [← h.rest, List.drop_drop]

theorem At.pos_seekgCur {s : IFStream} {r : List UInt8} (h : s.At r) (n : Nat) :
    (s.seekgCur n).pos = s.pos + n := by
  unfold IFStream.seekgCur
  simp [h.failbit]

theorem at_seekg_openFile (content : List UInt8) (n : Nat) :
    ((openFile content).seekg n).At (content.drop n) := by
  unfold seekg openFile
  simp only [Bool.false_eq_true, if_false]
  have hnot : ¬ (n : Int) < 0 := by omega
  simp only [hnot, if_false]
  exact ⟨rfl, by simp⟩

end IFStream

/-! ## Output -/

/-- How the system treats one output stream: whether it opens, and after how
many bytes it stops accepting any (`none`: never). -/
structure Device where
  opens : Bool
  room : Option Nat
deriving Repr, DecidableEq

/-- A device without failures. -/
def Device.sound : Device := ⟨true, none⟩

/-- A device that opens and takes `n` bytes. -/
def Device.full (n : Nat) : Device := ⟨true, some n⟩

/-- A file opened for writing: the bytes that reached it, the bytes it still
accepts, and the state bit. -/
structure OFStream where
  content : List UInt8
  room : Option Nat
  failbit : Bool
deriving Repr, DecidableEq

namespace OFStream

/-- `write(buf, n)`: nothing on a failed stream; where the device runs out of
room the bytes that fit are written and the stream fails. -/
def write (s : OFStream) (bytes : List UInt8) : OFStream :=
  if s.failbit then s
  else
    match s.room with
    | none => { s with content := s.content ++ bytes }
    | some n =>
      if bytes.length ≤ n then
        { s with content := s.content ++ bytes, room := some (n - bytes.length) }
      else
        { content := s.content ++ bytes.take n, room := some 0, failbit := true }

/-- `tellp()`: `-1` on a failed stream. -/
def tellp (s : OFStream) : Int := if s.failbit then -1 else s.content.length

/-- Opening with `trunc` on `dev`: an empty file, or a failed stream. -/
def openTrunc (dev : Device) : OFStream := ⟨[], dev.room, !dev.opens⟩

@[simp] theorem write_nil (s : OFStream) : s.write [] = s := by
  unfold write
  cases s with
  | mk content room failbit =>
      cases failbit
      · cases room <;> simp
      · simp

/-- Consecutive writes are one write. -/
theorem write_append (s : OFStream) (a b : List UInt8) :
    s.write (a ++ b) = (s.write a).write b := by
  cases s with
  | mk content room failbit =>
      cases failbit
      · cases room with
        | none => simp [write]
        | some n =>
            unfold write
            -- the device stops in the second part, in neither, or in the first
            by_cases ha : a.length ≤ n
            · by_cases hb : b.length ≤ n - a.length
              · have hab : a.length + b.length ≤ n := by omega
                have hsub : n - (a.length + b.length) = n - a.length - b.length := by omega
                simp [ha, hb, hab, hsub]
              · have hab : ¬ a.length + b.length ≤ n := by omega
                simp [ha, hb, hab, List.take_append, List.take_of_length_le ha]
            · have hab : ¬ a.length + b.length ≤ n := by omega
              have hzero : n - a.length = 0 := by omega
              simp [ha, hab, List.take_append, hzero]
      · simp [write]

/-- A device without failures takes everything. -/
theorem write_sound (content bytes : List UInt8) :
    (OFStream.mk content none false).write bytes = ⟨content ++ bytes, none, false⟩ := rfl

/-- On a device with room for `n` bytes the file gets the first `n` of those
written, and the stream fails exactly when they are more. -/
theorem write_room (content bytes : List UInt8) (n : Nat) :
    ((OFStream.mk content (some n) false).write bytes).content = content ++ bytes.take n ∧
      (((OFStream.mk content (some n) false).write bytes).failbit = true ↔ n < bytes.length) := by
  unfold write
  by_cases h : bytes.length ≤ n
  · have htake : bytes.take n = bytes := List.take_of_length_le h
    have hnot : ¬ n < bytes.length := by omega
    simp [h, htake]
  · have hlt : n < bytes.length := by omega
    simp [h, hlt]

end OFStream

end FileStream
