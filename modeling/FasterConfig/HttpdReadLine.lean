import FasterConfig.Memory
import FasterConfig.Strings
import Mathlib.Data.List.Enum
import Mathlib.Data.Int.Notation

/-!
# Lines from the network

Characters are taken one by one from a buffer that the network refills when
nothing remains in it. What remains and what is still to arrive is one stream
of bytes, and the lines are those of the stream.
-/

set_option autoImplicit false

namespace FasterConfig.HttpdReadLine
open FasterConfig.Strings FasterConfig.Memory

def httpReadBufLen : ℕ := 4096

def newline : UInt8 := 0x0a
def carriageReturn : UInt8 := 0x0d

structure Chunk where
  bytes : Text
  received : 0 < bytes.length
  fits : bytes.length ≤ httpReadBufLen

inductive Ending where
  | closed
  | failed
  deriving DecidableEq, Repr

def Ending.result : Ending → ℤ
  | .closed => 0
  | .failed => -1

structure Network where
  arriving : List Chunk
  ending : Ending

def Network.stream (net : Network) : Text := net.arriving.flatMap Chunk.bytes

/-- The result, and the bytes that are put into the buffer. -/
def httpdNetRead (net : Network) : ℤ × Text × Network :=
  match net.arriving with
  | [] => (net.ending.result, [], net)
  | c::arriving => (c.bytes.length, c.bytes, { net with arriving := arriving })

structure Reading where
  readBuf : Mem
  readBufPtr : ℕ
  readBufRemain : ℤ
  net : Network

def nextChar (r : Reading) : UInt8 × Reading :=
  (r.readBuf r.readBufPtr,
    { r with readBufPtr := r.readBufPtr+1, readBufRemain := r.readBufRemain-1 })

def httpdReadChar (r : Reading) : Option UInt8 × Reading :=
  if r.readBufRemain = 0 then
    let (n, bytes, net) := httpdNetRead r.net
    let readBuf := load bytes fun _ => 0 -- zeros, the bytes, and a NUL behind them
    if n < 1 then (none, { r with readBuf := readBuf, readBufRemain := n, net := net })
    else ((nextChar ⟨readBuf, 0, n, net⟩).map some id)
  else (nextChar r).map some id

/-- What a call has written to `destBuf`, with the places, and what `curChar` has been. -/
structure Filling where
  dst : ℕ
  count : ℕ
  writes : List (UInt8 × ℕ)
  used : Text

def Filling.start : Filling := ⟨0, 0, [], []⟩

def Filling.use (s : Filling) (curChar : UInt8) : Filling := { s with used := s.used ++ [curChar] }

def Filling.store (s : Filling) (curChar : UInt8) : Filling :=
  { s with dst := s.dst+1, count := s.count+1, writes := s.writes ++ [(curChar, s.dst)] }

def Filling.close (s : Filling) : Filling := { s with writes := s.writes ++ [(0, s.dst)] }

def readLoop (len : ℤ) : ℕ → Filling → Reading → Option (Bool × Filling × Reading)
  | 0, _, _ => none
  | fuel+1, s, r =>
    if s.count < len then
      match httpdReadChar r with
      | (none, r) => some (false, s, r)
      | (some curChar, r) =>
        let s := s.use curChar
        if curChar = newline ∨ 127 < curChar then some (true, s.close, r)
        else if curChar = carriageReturn then readLoop len fuel s r
        else readLoop len fuel (s.store curChar) r
    else some (true, s.close, r)

def httpdReadLine (fuel : ℕ) (len : ℤ) (r : Reading) : Option (Bool × Filling × Reading) :=
  readLoop len fuel .start r

/-- So many calls, or those up to the first that returns 0; the calls that returned 1, and
the characters of all of them. -/
def httpdReadLines (fuel : ℕ) (len : ℤ) : ℕ → Reading → Option (List Filling × Text × Reading)
  | 0, r => some ([], [], r)
  | n+1, r => do
    let (found, s, r) ← httpdReadLine fuel len r
    if found then
      let (lines, used, r) ← httpdReadLines fuel len n r
      return (s::lines, s.used ++ used, r)
    else return ([], s.used, r)

/-! ## The stream -/

/-- The next line of a stream, complete or not, and the stream behind it. -/
def takeLine (len : ℤ) : Text → Text → Bool × Text × Text
  | collected, [] => (decide (len ≤ collected.length), collected, [])
  | collected, c::stream =>
    if len ≤ collected.length then (true, collected, c::stream)
    else if c = newline ∨ 127 < c then (true, collected, stream)
    else if c = carriageReturn then takeLine len collected stream
    else takeLine len (collected ++ [c]) stream

/-- The first `n` lines; an unfinished one at the end is none. -/
def streamLines (len : ℤ) : ℕ → Text → List Text
  | 0, _ => []
  | n+1, stream =>
    let next := takeLine len [] stream
    if next.1 then next.2.1::streamLines len n next.2.2 else []

def Reading.pending (r : Reading) : Text :=
  slice r.readBuf r.readBufPtr r.readBufRemain.toNat ++ r.net.stream

theorem nextChar_pending (r : Reading) (h : 0 < r.readBufRemain) :
    r.pending = (nextChar r).1::(nextChar r).2.pending := by
  obtain ⟨n, hn⟩ := Int.eq_succ_of_zero_lt h
  have hrest : (nextChar r).2.readBufRemain = n := by
    change r.readBufRemain-1 = n
    omega
  rw [Reading.pending, Reading.pending, hn, hrest]
  rfl

theorem slice_chunk (c : Chunk) (behind : Mem) :
    slice (load c.bytes behind) 0 c.bytes.length = c.bytes := by
  rw [slice_load c.bytes behind 0 _ (Nat.le_of_eq (Nat.zero_add _)), List.drop_zero, List.take_length]

theorem readChar_some (r : Reading) (h : 0 < r.readBufRemain) :
    httpdReadChar r = (some (nextChar r).1, (nextChar r).2) := by
  rw [httpdReadChar, if_neg (by omega)]
  rfl

theorem readChar_pending (r : Reading) (h : 0 ≤ r.readBufRemain) :
    (httpdReadChar r).1 = r.pending.head? ∧ (httpdReadChar r).2.pending = r.pending.tail ∧
      (r.pending ≠ [] → 0 ≤ (httpdReadChar r).2.readBufRemain) := by
  rcases Int.lt_or_eq_of_le h with h | h
  · rw [readChar_some r h, nextChar_pending r h]
    exact ⟨rfl, rfl, fun _ => Int.le_sub_one_of_lt h⟩
  rw [httpdReadChar, if_pos h.symm, httpdNetRead]
  have hpending : r.pending = r.net.stream := by
    rw [Reading.pending, ← h]
    rfl
  rw [hpending, Network.stream]
  cases hnet : r.net.arriving with
  | nil =>
    have hend : r.net.ending.result < 1 ∧ r.net.ending.result.toNat = 0 := by
      cases r.net.ending <;> decide
    simp only [if_pos hend.1]
    refine ⟨rfl, ?_, fun hne => absurd rfl hne⟩
    rw [Reading.pending, hend.2, Network.stream, hnet]
    rfl
  | cons c arriving =>
    have hc := c.received
    simp only [if_neg (show ¬ (c.bytes.length : ℤ) < 1 by omega)]
    let fresh : Reading := ⟨load c.bytes fun _ => 0, 0, c.bytes.length, { r.net with arriving := arriving }⟩
    have hfresh : fresh.pending = c.bytes ++ arriving.flatMap Chunk.bytes := by
      rw [Reading.pending, Network.stream]
      exact congrArg (· ++ _) (slice_chunk c _)
    have hnext := nextChar_pending fresh (by change 0 < (c.bytes.length : ℤ); omega)
    rw [List.flatMap_cons, ← hfresh, hnext]
    exact ⟨rfl, rfl, fun _ => by change 0 ≤ (c.bytes.length : ℤ)-1; omega⟩

/-! ## One line -/

def filled (text used : Text) : Filling := ⟨text.length, text.length, text.zipIdx, used⟩

theorem filled_store (text used : Text) (c : UInt8) :
    (filled text used).store c = filled (text ++ [c]) used := by
  rw [filled, filled, Filling.store, List.length_append, List.length_singleton, List.zipIdx_append,
    Nat.zero_add]
  rfl

theorem filled_close (text used : Text) :
    (filled text used).close.writes = (text ++ [0]).zipIdx := by
  rw [filled, Filling.close, List.zipIdx_append, Nat.zero_add]
  rfl

def ended (found : Bool) (s : Filling) : Filling := if found then s.close else s

/-- The loop reads the next line of the stream, and only its bytes. -/
theorem readLoop_stream (len : ℤ) (stream : Text) (text used : Text) (r : Reading) (fuel : ℕ)
    (hr : 0 ≤ r.readBufRemain) (hp : r.pending = stream) (hf : stream.length < fuel) :
    ∃ more r', readLoop len fuel (filled text used) r =
        some ((takeLine len text stream).1,
          ended (takeLine len text stream).1 (filled (takeLine len text stream).2.1 (used ++ more)), r') ∧
      stream = more ++ (takeLine len text stream).2.2 ∧
      r'.pending = (takeLine len text stream).2.2 ∧
      ((takeLine len text stream).1 → 0 ≤ r'.readBufRemain) := by
  induction stream generalizing text used r fuel with
  | nil =>
    obtain ⟨fuel, rfl⟩ := Nat.exists_eq_add_of_le' (Nat.succ_le_of_lt (Nat.zero_lt_of_lt hf))
    obtain ⟨hchar, hrest, -⟩ := readChar_pending r hr
    rw [hp] at hchar hrest
    by_cases hl : len ≤ text.length
    · refine ⟨[], r, ?_, ?_⟩
      · rw [readLoop, if_neg (by simpa [filled] using hl), takeLine, decide_eq_true hl,
          List.append_nil]
        rfl
      · exact ⟨rfl, hp, fun _ => hr⟩
    · have hread : httpdReadChar r = (none, (httpdReadChar r).2) := Prod.ext hchar rfl
      refine ⟨[], (httpdReadChar r).2, ?_, ?_⟩
      · rw [readLoop, if_pos (by simpa [filled] using hl), takeLine, decide_eq_false hl,
          List.append_nil, hread]
        rfl
      · rw [takeLine, decide_eq_false hl]
        exact ⟨rfl, hrest, fun h => absurd h Bool.false_ne_true⟩
  | cons c stream ih =>
    obtain ⟨fuel, rfl⟩ := Nat.exists_eq_add_of_le' (Nat.succ_le_of_lt (Nat.zero_lt_of_lt hf))
    obtain ⟨hchar, hrest, hremain⟩ := readChar_pending r hr
    rw [hp] at hchar hrest hremain
    have hremain := hremain (List.cons_ne_nil c stream)
    have hread : httpdReadChar r = (some c, (httpdReadChar r).2) := Prod.ext hchar rfl
    rw [List.length_cons] at hf
    rw [takeLine]
    by_cases hl : len ≤ text.length
    · rw [if_pos hl]
      refine ⟨[], r, ?_, rfl, hp, fun _ => hr⟩
      rw [readLoop, if_neg (by simpa [filled] using hl), List.append_nil]
      rfl
    rw [if_neg hl, readLoop, if_pos (by simpa [filled] using hl), hread]
    by_cases he : c = newline ∨ 127 < c
    · simp only [if_pos he]
      exact ⟨[c], _, rfl, rfl, hrest, fun _ => hremain⟩
    simp only [if_neg he]
    by_cases hc : c = carriageReturn
    · simp only [if_pos hc]
      obtain ⟨more, r', hrun, hmore, hr'⟩ :=
        ih text (used ++ [c]) _ fuel hremain hrest (by omega)
      refine ⟨c::more, r', ?_, congrArg (c::·) hmore, hr'⟩
      rw [← List.append_cons] at hrun
      exact hrun
    · simp only [if_neg hc]
      obtain ⟨more, r', hrun, hmore, hr'⟩ :=
        ih (text ++ [c]) (used ++ [c]) _ fuel hremain hrest (by omega)
      refine ⟨c::more, r', ?_, congrArg (c::·) hmore, hr'⟩
      rw [← List.append_cons, ← filled_store] at hrun
      exact hrun

theorem readLine_stream (len : ℤ) (r : Reading) (fuel : ℕ) (hr : 0 ≤ r.readBufRemain)
    (hf : r.pending.length < fuel) :
    let next := takeLine len [] r.pending
    ∃ used r', httpdReadLine fuel len r = some (next.1, ended next.1 (filled next.2.1 used), r') ∧
      r.pending = used ++ next.2.2 ∧ r'.pending = next.2.2 ∧ (next.1 → 0 ≤ r'.readBufRemain) :=
  readLoop_stream len r.pending [] [] r fuel hr rfl hf

theorem takeLine_none (len : ℤ) (text stream : Text) (h : (takeLine len text stream).1 = false) :
    (takeLine len text stream).2.2 = [] := by
  induction stream generalizing text with
  | nil => rfl
  | cons c stream ih =>
    rw [takeLine] at h ⊢
    split_ifs at h ⊢ with hl he hc
    · exact ih text h
    · exact ih (text ++ [c]) h

/-! ## Any number of lines -/

theorem readLines_stream (len : ℤ) (fuel n : ℕ) (r : Reading) (hr : 0 ≤ r.readBufRemain)
    (hf : r.pending.length < fuel) :
    ∃ calls used r', httpdReadLines fuel len n r = some (calls, used, r') ∧
      calls.map Filling.writes = (streamLines len n r.pending).map (fun line => (line ++ [0]).zipIdx) ∧
      r.pending = used ++ r'.pending ∧
      ((streamLines len n r.pending).length < n → r'.pending = []) := by
  induction n generalizing r with
  | zero => exact ⟨[], [], r, rfl, rfl, rfl, fun h => absurd h (Nat.lt_irrefl 0)⟩
  | succ n ih =>
    obtain ⟨used, r', hrun, hused, hp, hr'⟩ := readLine_stream len r fuel hr hf
    rw [httpdReadLines, hrun, streamLines]
    cases hfound : (takeLine len [] r.pending).1 with
    | false =>
      rw [if_neg Bool.false_ne_true]
      have hrest := takeLine_none len [] r.pending hfound
      refine ⟨[], used, r', rfl, rfl, hp ▸ hused, fun _ => hp.trans hrest⟩
    | true =>
      rw [if_pos rfl]
      have hshort : r'.pending.length < fuel := by
        have hl := congrArg List.length hused
        rw [List.length_append, ← hp] at hl
        omega
      obtain ⟨calls, more, r'', hruns, hw, hmore, hall⟩ := ih r' (hr' hfound) hshort
      refine ⟨(filled (takeLine len [] r.pending).2.1 used).close::calls, used ++ more, r'', ?_, ?_, ?_, ?_⟩
      · simp only [Option.bind_eq_bind, Option.bind_some, if_true, hruns]
        rfl
      · rw [List.map_cons, List.map_cons, filled_close, hw, hp]
      · rw [List.append_assoc, ← hmore, hp]
        exact hused
      · rw [List.length_cons, ← hp]
        exact fun h => hall (Nat.lt_of_succ_lt_succ h)

/-- However the stream is cut, the calls read its lines, and use its bytes in order. -/
theorem lines_of_stream (len : ℤ) (n extra : ℕ) (readBuf : Mem) (readBufPtr : ℕ) (net : Network) :
    ∃ calls used r',
      httpdReadLines (net.stream.length+1+extra) len n ⟨readBuf, readBufPtr, 0, net⟩ =
        some (calls, used, r') ∧
      calls.map Filling.writes = (streamLines len n net.stream).map (fun line => (line ++ [0]).zipIdx) ∧
      net.stream = used ++ r'.pending ∧
      ((streamLines len n net.stream).length < n → r'.pending = []) :=
  readLines_stream len _ n ⟨readBuf, readBufPtr, 0, net⟩ (Int.le_refl 0)
    (Nat.lt_of_lt_of_le (Nat.lt_succ_self _) (Nat.le_add_right _ _))

end FasterConfig.HttpdReadLine
