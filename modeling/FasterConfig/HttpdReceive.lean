import FasterConfig.HttpdOutput
import FasterConfig.HttpdReadLine
import FasterConfig.HttpdReadRequest

/-!
# Receiving a request

A request is read line by line into one array. The lines that are read are
those of the stream up to the end of its headers, and every one of them is
written to the array with its NUL.
-/

set_option autoImplicit false

namespace FasterConfig.HttpdReceive
open FasterConfig.Strings FasterConfig.HttpdReadLine FasterConfig.HttpdReadRequest
open FasterConfig.HttpdOutput (httpMaxLen)

def write (buf : Text) (w : UInt8 × ℕ) : Text :=
  if w.2 < buf.length then buf.set w.2 w.1 else buf ++ [w.1]

/-- The loop from the second line on; the second result are the writes to `buf`. -/
def receiveHeaders (authBuf : ℕ → UInt8) :
    ℕ → Text → HttpReq → Reading → Option (HttpReq × List (UInt8 × ℕ))
  | 0, _, _, _ => none
  | fuel+1, buf, req, r => do
    let (found, s, r) ← httpdReadLine fuel httpMaxLen r
    if found then
      let buf := s.writes.foldl write buf
      let text := cString buf
      if text = [] then return (req, s.writes)
      else
        let req := readHeader authBuf req text (buf.drop (text.length+1))
        let (req, writes) ← receiveHeaders authBuf fuel buf req r
        return (req, s.writes ++ writes)
    else return (req, s.writes)

def receiveRequest (authBuf : ℕ → UInt8) (fuel : ℕ) (buf : Text) (r : Reading) :
    Option (Option HttpReq × List (UInt8 × ℕ)) := do
  let (found, s, r) ← httpdReadLine fuel httpMaxLen r
  if found then
    let buf := s.writes.foldl write buf
    match readRequestLine .fresh buf with
    | none => return (none, s.writes)
    | some req =>
      let (req, writes) ← receiveHeaders authBuf fuel (cutRequestLine buf) req r
      return (some (splitQuery req), s.writes ++ writes)
  else return (some (splitQuery .fresh), s.writes)

/-! ## Lines without a limit -/

def wholeLines : Text → Text → List Text
  | collected, [] => [collected]
  | collected, c::stream =>
    if c = newline ∨ 127 < c then collected::wholeLines [] stream
    else if c = carriageReturn then wholeLines collected stream
    else wholeLines (collected ++ [c]) stream

def throughEmpty : List Text → List Text
  | [] => []
  | line::lines => if cString line = [] then [line] else line::throughEmpty lines

def readThrough : List Text → List Text
  | [] => []
  | line::lines =>
    if (requestMethod (line.takeWhile isAlpha)).isSome then line::throughEmpty lines else [line]

theorem wholeLines_first (text stream : Text) :
    ∃ more lines, wholeLines text stream = (text ++ more)::lines := by
  induction stream generalizing text with
  | nil => exact ⟨[], [], by rw [List.append_nil]; rfl⟩
  | cons c stream ih =>
    rw [wholeLines]
    split_ifs
    · exact ⟨[], _, by rw [List.append_nil]⟩
    · exact ih text
    · obtain ⟨more, lines, h⟩ := ih (text ++ [c])
      exact ⟨c::more, lines, by rw [h, ← List.append_cons]⟩

theorem first_mem_throughEmpty (line : Text) (lines : List Text) :
    line ∈ throughEmpty (line::lines) := by
  rw [throughEmpty]
  split_ifs <;> exact List.mem_cons_self

theorem first_mem_readThrough (line : Text) (lines : List Text) : line ∈ readThrough (line::lines) := by
  rw [readThrough]
  split_ifs <;> exact List.mem_cons_self

theorem mem_throughEmpty (lines : List Text) : ∀ line ∈ throughEmpty lines, line ∈ lines := by
  induction lines with
  | nil => exact fun line h => h
  | cons first lines ih =>
    intro line h
    rw [throughEmpty] at h
    split_ifs at h
    · rw [List.mem_singleton.mp h]
      exact List.mem_cons_self
    · exact List.mem_cons.mpr ((List.mem_cons.mp h).imp_right (ih line))

theorem mem_readThrough (lines : List Text) : ∀ line ∈ readThrough lines, line ∈ lines := by
  cases lines with
  | nil => exact fun line h => h
  | cons first lines =>
    intro line h
    rw [readThrough] at h
    split_ifs at h
    · exact List.mem_cons.mpr ((List.mem_cons.mp h).imp_right (mem_throughEmpty lines line))
    · rw [List.mem_singleton.mp h]
      exact List.mem_cons_self

theorem takeLine_whole (len : ℕ) (stream text : Text) (h : text.length ≤ len) :
    ∃ line lines, wholeLines text stream = line::lines ∧
      (line.length < len → (takeLine len text stream).2.1 = line ∧
        lines = if (takeLine len text stream).1 then wholeLines [] (takeLine len text stream).2.2
          else []) ∧
      (len ≤ line.length → (takeLine len text stream).1 = true ∧
        (takeLine len text stream).2.1.length = len) := by
  induction stream generalizing text with
  | nil =>
    refine ⟨text, [], rfl, fun hl => ⟨rfl, ?_⟩, fun hl => ⟨?_, Nat.le_antisymm h hl⟩⟩
    · rw [takeLine, decide_eq_false (by omega)]
      rfl
    · exact decide_eq_true (by omega)
  | cons c stream ih =>
    by_cases hl : (len : ℤ) ≤ text.length
    · obtain ⟨more, lines, hw⟩ := wholeLines_first text (c::stream)
      have hlen : (text ++ more).length = text.length+more.length := List.length_append
      rw [takeLine, if_pos hl, hw]
      exact ⟨_, _, rfl, fun hs => by omega, fun _ => ⟨rfl, show text.length = len by omega⟩⟩
    rw [wholeLines, takeLine, if_neg hl]
    by_cases he : c = newline ∨ 127 < c
    · rw [if_pos he, if_pos he]
      exact ⟨text, _, rfl, fun _ => ⟨rfl, rfl⟩, fun hl => by omega⟩
    rw [if_neg he, if_neg he]
    by_cases hc : c = carriageReturn
    · rw [if_pos hc, if_pos hc]
      exact ih text h
    · rw [if_neg hc, if_neg hc]
      exact ih (text ++ [c]) (by rw [List.length_append, List.length_singleton]; omega)

/-! ## What is read and written -/

theorem foldl_write (w buf : Text) (k : ℕ) (h : k ≤ buf.length) :
    (w.zipIdx k).foldl write buf = buf.take k ++ w ++ buf.drop (k+w.length) := by
  induction w generalizing buf k with
  | nil => simp
  | cons c w ih =>
    have hnext : (write buf (c, k)).take (k+1) = buf.take k ++ [c] ∧
        k+1 ≤ (write buf (c, k)).length ∧
        (write buf (c, k)).drop (k+1+w.length) = buf.drop (k+1+w.length) := by
      rw [write]
      split_ifs with hk
      · refine ⟨take_set_succ buf k c hk, ?_, List.drop_set_of_lt (by omega)⟩
        rw [List.length_set]
        exact hk
      · have hk : k = buf.length := by simp only at hk; omega
        rw [hk, List.take_length]
        refine ⟨List.take_of_length_le (by simp), by simp, ?_⟩
        rw [List.drop_of_length_le (by simp), List.drop_of_length_le (by omega)]
    rw [List.zipIdx_cons, List.foldl_cons, ih _ _ hnext.2.1, hnext.1, hnext.2.2, List.length_cons,
      ← List.append_cons, Nat.add_assoc, Nat.add_comm 1]

theorem writes_readLine (buf line : Text) :
    ((line ++ [0]).zipIdx).foldl write buf = readLine buf line := by
  rw [foldl_write _ _ 0 (Nat.zero_le _), readLine]
  simp

theorem takeLine_shorter (len : ℤ) (text stream : Text) (hl : text.length < len)
    (h : (takeLine len text stream).1 = true) :
    (takeLine len text stream).2.2.length < stream.length := by
  induction stream generalizing text with
  | nil =>
    rw [takeLine] at h
    exact absurd (of_decide_eq_true h) (by omega)
  | cons c stream ih =>
    rw [takeLine, if_neg (by omega)] at h ⊢
    rw [List.length_cons]
    split_ifs at h ⊢ with he hc
    · exact Nat.lt_succ_self _
    · exact Nat.lt_succ_of_lt (ih text hl h)
    · by_cases hfull : len ≤ (text ++ [c]).length
      · have hrest : (takeLine len (text ++ [c]) stream).2.2 = stream := by
          cases stream with
          | nil => rfl
          | cons d stream => rw [takeLine, if_pos hfull]
        rw [hrest]
        exact Nat.lt_succ_self _
      · exact Nat.lt_succ_of_lt (ih (text ++ [c]) (by omega) h)

theorem streamLines_enough (len : ℤ) (hlen : 0 < len) (m n : ℕ) (stream : Text)
    (hm : stream.length < m) (hn : stream.length < n) :
    streamLines len m stream = streamLines len n stream := by
  induction m generalizing n stream with
  | zero => omega
  | succ m ih =>
    obtain ⟨n, rfl⟩ := Nat.exists_eq_add_of_le' (Nat.succ_le_of_lt (Nat.zero_lt_of_lt hn))
    rw [streamLines, streamLines]
    split_ifs with hfound
    · have hshorter := takeLine_shorter len [] stream hlen hfound
      rw [ih n _ (by omega) (by omega)]
    · rfl

theorem zipIdx_below (w : Text) (n : ℕ) : (∀ x ∈ w.zipIdx, x.2 < n) ↔ w = [] ∨ w.length ≤ n := by
  rw [← List.forall_mem_map (P := fun i => i < n), List.zipIdx_map_snd, range_below_iff,
    List.length_eq_zero_iff, Nat.zero_add]

theorem call_below (len : ℕ) (stream used line : Text) (lines : List Text)
    (h : wholeLines [] stream = line::lines) :
    (∀ x ∈ (ended (takeLine len [] stream).1 (filled (takeLine len [] stream).2.1 used)).writes,
      x.2 < len) ↔ line.length < len := by
  obtain ⟨line', lines', hw, hshort, hlong⟩ := takeLine_whole len stream [] (Nat.zero_le _)
  rw [h] at hw
  obtain ⟨rfl, rfl⟩ := List.cons.inj hw
  rw [ended]
  by_cases hl : line.length < len
  · refine iff_of_true ?_ hl
    rw [(hshort hl).1]
    split_ifs
    · rw [filled_close, zipIdx_below]
      exact .inr (by rw [List.length_append]; exact hl)
    · exact (zipIdx_below _ _).mpr (.inr (Nat.le_of_lt hl))
  · obtain ⟨hfound, hcut⟩ := hlong (Nat.le_of_not_lt hl)
    refine iff_of_false ?_ hl
    rw [if_pos hfound, filled_close, zipIdx_below, List.length_append, hcut]
    simp

def Inside (writes : List (UInt8 × ℕ)) : Prop := ∀ w ∈ writes, w.2 < httpMaxLen

theorem inside_append (u w : List (UInt8 × ℕ)) : Inside (u ++ w) ↔ Inside u ∧ Inside w :=
  List.forall_mem_append

theorem readLine_call (r : Reading) (fuel : ℕ) (hr : 0 ≤ r.readBufRemain)
    (hf : r.pending.length < fuel) :
    ∃ found line s r' whole lines, httpdReadLine fuel httpMaxLen r = some (found, s, r') ∧
      wholeLines [] r.pending = whole::lines ∧ (Inside s.writes ↔ whole.length < httpMaxLen) ∧
      (∀ n, streamLines httpMaxLen (n+1) r.pending =
        if found then line::streamLines httpMaxLen n r'.pending else []) ∧
      (found = true → 0 ≤ r'.readBufRemain ∧ r'.pending.length < r.pending.length ∧
        (∀ buf, s.writes.foldl write buf = readLine buf line) ∧ (whole.length < httpMaxLen → whole = line ∧
          lines = wholeLines [] r'.pending)) ∧
      (found = false → whole.length < httpMaxLen ∧ lines = []) := by
  obtain ⟨used, r', hrun, hused, hp, hr'⟩ := readLine_stream httpMaxLen r fuel hr hf
  obtain ⟨whole, lines, hw, hshort, hlong⟩ := takeLine_whole httpMaxLen r.pending [] (Nat.zero_le _)
  have hbelow := call_below httpMaxLen r.pending used whole lines hw
  refine ⟨_, (takeLine httpMaxLen [] r.pending).2.1, _, r', whole, lines, hrun, hw, hbelow, ?_, ?_, ?_⟩
  · intro n
    rw [streamLines, hp]
  · intro hfound
    refine ⟨hr' hfound, ?_, ?_, ?_⟩
    · rw [hp]
      exact takeLine_shorter httpMaxLen [] r.pending (by decide) hfound
    · intro buf
      rw [hfound, ended, if_pos rfl, filled_close, writes_readLine]
    · intro hl
      obtain ⟨hline, hlines⟩ := hshort hl
      rw [hfound, if_pos rfl, ← hp] at hlines
      exact ⟨hline.symm, hlines⟩
  · intro hfound
    have hl : whole.length < httpMaxLen := by
      by_contra hl
      exact absurd ((hlong (Nat.le_of_not_lt hl)).1.symm.trans hfound) Bool.noConfusion
    refine ⟨hl, ?_⟩
    rw [(hshort hl).2, hfound]
    rfl

theorem cString_readLine (buf line : Text) : cString (readLine buf line) = cString line := cString_cut _ _

theorem receiveHeaders_spec (authBuf : ℕ → UInt8) (fuel : ℕ) (buf : Text) (req : HttpReq) (r : Reading)
    (hr : 0 ≤ r.readBufRemain) (hf : r.pending.length+1 < fuel) :
    ∃ writes, receiveHeaders authBuf fuel buf req r =
        some (readHeaders authBuf buf req (streamLines httpMaxLen fuel r.pending), writes) ∧
      (Inside writes ↔ ∀ line ∈ throughEmpty (wholeLines [] r.pending), line.length < httpMaxLen) := by
  induction fuel generalizing buf req r with
  | zero => omega
  | succ fuel ih =>
    obtain ⟨found, line, s, r', whole, lines, hrun, hw, hin, hlines, hsome, hnone⟩ :=
      readLine_call r fuel hr (by omega)
    have hfirst := first_mem_throughEmpty whole lines
    rw [receiveHeaders, hrun, hlines, hw]
    cases found with
    | false =>
      obtain ⟨hl, rfl⟩ := hnone rfl
      refine ⟨s.writes, rfl, iff_of_true (hin.mpr hl) ?_⟩
      rw [throughEmpty]
      split_ifs <;> simpa [throughEmpty] using hl
    | true =>
      obtain ⟨hr', hshorter, hbuf, hwhole⟩ := hsome rfl
      rw [if_pos rfl, readHeaders]
      simp only [Option.bind_eq_bind, Option.bind_some, if_true, hbuf, cString_readLine]
      by_cases he : cString line = []
      · rw [if_pos he, if_pos he]
        refine ⟨s.writes, rfl, hin.trans ?_⟩
        by_cases hl : whole.length < httpMaxLen
        · rw [(hwhole hl).1, throughEmpty, if_pos he]
          simp
        · exact iff_of_false hl fun h => hl (h whole hfirst)
      · rw [if_neg he, if_neg he]
        obtain ⟨writes, hrest, hinside⟩ := ih (readLine buf line) (readHeader authBuf req (cString line)
          ((readLine buf line).drop ((cString line).length+1))) r' hr' (by omega)
        refine ⟨s.writes ++ writes, ?_, ?_⟩
        · rw [hrest]
          rfl
        · rw [inside_append, hin, hinside]
          by_cases hl : whole.length < httpMaxLen
          · obtain ⟨rfl, rfl⟩ := hwhole hl
            rw [throughEmpty, if_neg he]
            simp
          · exact iff_of_false (fun h => hl h.1) fun h => hl (h whole hfirst)

def requestLines (stream : Text) : List Text := streamLines httpMaxLen (stream.length+1) stream

theorem takeWhile_readLine (buf line : Text) :
    (readLine buf line).takeWhile isAlpha = line.takeWhile isAlpha :=
  takeWhile_stop _ (by decide) _ _

/-- Receiving is reading the lines of the stream; only lines that are too long leave the array. -/
theorem receiveRequest_spec (authBuf : ℕ → UInt8) (buf : Text) (r : Reading) (fuel : ℕ)
    (hr : 0 ≤ r.readBufRemain) (hf : r.pending.length+1 < fuel) :
    ∃ writes, receiveRequest authBuf fuel buf r =
        some (httpdReadRequest buf authBuf (requestLines r.pending), writes) ∧
      (Inside writes ↔ ∀ line ∈ readThrough (wholeLines [] r.pending), line.length < httpMaxLen) := by
  obtain ⟨found, line, s, r', whole, lines, hrun, hw, hin, hlines, hsome, hnone⟩ :=
    readLine_call r fuel hr (by omega)
  have hfirst := first_mem_readThrough whole lines
  rw [receiveRequest, hrun, hw, requestLines, hlines]
  cases found with
  | false =>
    obtain ⟨hl, rfl⟩ := hnone rfl
    refine ⟨s.writes, rfl, iff_of_true (hin.mpr hl) ?_⟩
    rw [readThrough]
    split_ifs <;> simpa [throughEmpty] using hl
  | true =>
    obtain ⟨hr', hshorter, hbuf, hwhole⟩ := hsome rfl
    rw [if_pos rfl, httpdReadRequest]
    simp only [Option.bind_eq_bind, Option.bind_some, if_true, hbuf, readRequestLine,
      takeWhile_readLine]
    cases hmethod : requestMethod (line.takeWhile isAlpha) with
    | none =>
      refine ⟨s.writes, rfl, hin.trans ?_⟩
      by_cases hl : whole.length < httpMaxLen
      · rw [(hwhole hl).1, readThrough, hmethod]
        simp
      · exact iff_of_false hl fun h => hl (h whole hfirst)
    | some method =>
      have hlast : streamLines httpMaxLen r.pending.length r'.pending =
          streamLines httpMaxLen fuel r'.pending :=
        streamLines_enough httpMaxLen (by decide) _ _ _ hshorter (by omega)
      obtain ⟨writes, hrest, hinside⟩ := receiveHeaders_spec authBuf fuel
        (cutRequestLine (readLine buf line))
        { HttpReq.fresh with
          method := some method
          path := HttpdRequest.httpdSanitiseUrl
            (strncpy (requestTarget (readLine buf line)) HttpdRequest.httpMaxUrl) }
        r' hr' (by omega)
      refine ⟨s.writes ++ writes, ?_, ?_⟩
      · rw [hlast]
        simp only [Option.map_some, hrest]
        rfl
      · rw [inside_append, hin, hinside]
        by_cases hl : whole.length < httpMaxLen
        · obtain ⟨rfl, rfl⟩ := hwhole hl
          rw [readThrough, hmethod]
          simp
        · exact iff_of_false (fun h => hl h.1) fun h => hl (h whole hfirst)

theorem receive_fresh (authBuf : ℕ → UInt8) (buf : Text) (readBuf : Memory.Mem) (readBufPtr : ℕ)
    (net : Network) (extra : ℕ) :
    ∃ writes, receiveRequest authBuf (net.stream.length+2+extra) buf ⟨readBuf, readBufPtr, 0, net⟩ =
        some (httpdReadRequest buf authBuf (requestLines net.stream), writes) ∧
      (Inside writes ↔ ∀ line ∈ readThrough (wholeLines [] net.stream), line.length < httpMaxLen) :=
  receiveRequest_spec authBuf buf ⟨readBuf, readBufPtr, 0, net⟩ _ (Int.le_refl 0)
    (Nat.lt_of_lt_of_le (Nat.lt_succ_self _) (Nat.le_add_right _ _))

/-! ## The array -/

/-- Every write is inside the array exactly when no line the request reads is as long as the array. -/
theorem receive_inside_iff (authBuf : ℕ → UInt8) (buf : Text) (readBuf : Memory.Mem) (readBufPtr : ℕ)
    (net : Network) (extra : ℕ) :
    ∃ req writes,
      receiveRequest authBuf (net.stream.length+2+extra) buf ⟨readBuf, readBufPtr, 0, net⟩ =
        some (req, writes) ∧
      ((∀ w ∈ writes, w.2 < httpMaxLen) ↔
        ∀ line ∈ readThrough (wholeLines [] net.stream), line.length < httpMaxLen) := by
  obtain ⟨writes, hrun, hinside⟩ := receive_fresh authBuf buf readBuf readBufPtr net extra
  exact ⟨_, writes, hrun, hinside⟩

theorem wholeLines_plain (text stream : Text)
    (h : ∀ c ∈ stream, c ≠ newline ∧ ¬ 127 < c ∧ c ≠ carriageReturn) :
    wholeLines text stream = [text ++ stream] := by
  induction stream generalizing text with
  | nil => rw [List.append_nil, wholeLines]
  | cons c stream ih =>
    obtain ⟨hn, ha, hc⟩ := h c List.mem_cons_self
    rw [wholeLines, if_neg (not_or_intro hn ha), if_neg hc,
      ih _ fun d hd => h d (List.mem_cons_of_mem c hd), ← List.append_cons]

def lettersChunk (n : ℕ) (h0 : 0 < n) (h : n ≤ httpReadBufLen) : Chunk where
  bytes := List.replicate n 0x41
  received := by rwa [List.length_replicate]
  fits := by rwa [List.length_replicate]

def fullLine : Network where
  arriving := [lettersChunk 4096 (by decide) (by decide), lettersChunk 4096 (by decide) (by decide),
    lettersChunk 2048 (by decide) (by decide)]
  ending := .closed

theorem fullLine_stream : fullLine.stream = List.replicate 10240 0x41 := by
  simp only [Network.stream, fullLine, lettersChunk, List.flatMap_cons, List.flatMap_nil,
    List.append_nil, List.replicate_append_replicate, Nat.reduceAdd]

theorem full_line_overruns : ∃ req writes,
    receiveRequest (fun _ => 0) (fullLine.stream.length+2) [] ⟨fun _ => 0, 0, 0, fullLine⟩ =
      some (req, writes) ∧ ¬ ∀ w ∈ writes, w.2 < httpMaxLen := by
  obtain ⟨writes, hrun, hinside⟩ := receive_fresh (fun _ => 0) [] (fun _ => 0) 0 fullLine 0
  have hplain : wholeLines [] (List.replicate 10240 0x41) = [List.replicate 10240 0x41] := by
    apply wholeLines_plain
    intro c hc
    rw [List.eq_of_mem_replicate hc]
    decide
  refine ⟨_, writes, hrun, fun h => ?_⟩
  have hlong := hinside.mp h
  rw [fullLine_stream, hplain] at hlong
  have hlength : (List.replicate 10240 (0x41 : UInt8)).length = httpMaxLen := List.length_replicate
  generalize List.replicate 10240 (0x41 : UInt8) = line at hlong hlength
  exact absurd (hlong line (first_mem_readThrough line [])) (by rw [hlength]; exact Nat.lt_irrefl _)

end FasterConfig.HttpdReceive
