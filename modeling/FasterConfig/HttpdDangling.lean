import FasterConfig.HttpdBase64

/-!
# A group of one character

The decoder always reads groups of four. Where the last group has one
character and the string ends there, it looks at what stands behind the NUL.
Only then does the decoded text depend on it, by one octet at its end.
-/

set_option autoImplicit false

namespace FasterConfig.HttpdDangling
open FasterConfig.Strings FasterConfig.HttpdDecode FasterConfig.HttpdReadRequest
open FasterConfig.HttpdBase64

def authText (coded : AsciiText) (beyond authBuf : ℕ → UInt8) : Text :=
  decodedText (httpdDecode coded beyond 100) authBuf

/-- The last group has one character, is decoded, and the string ends behind it. -/
structure Dangling (coded : AsciiText) : Prop where
  one : codeLength coded%4 = 1
  decoded : codeLength coded ≤ 133
  last : blanks coded+codeLength coded = coded.text.length

instance (coded : AsciiText) : Decidable (Dangling coded) :=
  decidable_of_iff (codeLength coded%4 = 1 ∧ codeLength coded ≤ 133 ∧
    blanks coded+codeLength coded = coded.text.length)
    ⟨fun h => ⟨h.1, h.2.1, h.2.2⟩, fun h => ⟨h.1, h.2, h.3⟩⟩

def fixedPart (coded : AsciiText) : Text :=
  (List.range (decodedLength coded-2)).map (plain (codes coded fun _ => 0))

def appended (c : UInt8) : UInt8 := if pr2six c ≤ decodeMaxval then UInt8.ofNat (pr2six c >>> 2) else 0

theorem codes_same (coded : AsciiText) (beyond beyond' : ℕ → UInt8) (k : ℕ)
    (h : blanks coded+k ≤ coded.text.length) : codes coded beyond k = codes coded beyond' k := by
  have hk : blanks coded+k < (coded.text ++ [0]).length := by
    rw [List.length_append, List.length_singleton]
    omega
  rw [codes, codes, memory, memory, List.getD_eq_getElem _ _ hk, List.getD_eq_getElem _ _ hk]

theorem getD_stop (p : UInt8 → Bool) (h0 : p 0 = false) (u : Text) :
    p ((u ++ [0]).getD (u.takeWhile p).length 0) = false := by
  induction u with
  | nil => exact h0
  | cons c u ih =>
    rw [List.takeWhile_cons]
    split_ifs with hc
    · exact ih
    · exact Bool.eq_false_of_not_eq_true hc

theorem codes_drop (coded : AsciiText) (beyond : ℕ → UInt8) (k : ℕ)
    (h : blanks coded+k ≤ coded.text.length) :
    codes coded beyond k = pr2six ((coded.text.drop (blanks coded) ++ [0]).getD k 0) := by
  have hk : blanks coded+k < (coded.text ++ [0]).length := by
    rw [List.length_append, List.length_singleton]
    omega
  have hdrop : coded.text.drop (blanks coded) ++ [0] = (coded.text ++ [0]).drop (blanks coded) :=
    (List.drop_append_of_le_length (by omega)).symm
  rw [codes, memory, hdrop, List.getD_eq_getElem _ _ hk, List.getD_eq_getElem _ _
    (by rw [List.length_drop]; omega), List.getElem_drop]

theorem code_stop (coded : AsciiText) (beyond : ℕ → UInt8) :
    codes coded beyond (codeLength coded) = 64 := by
  have hle : codes coded beyond (codeLength coded) ≤ 64 := List.idxOf_le_length
  have hgt : ¬ codes coded beyond (codeLength coded) ≤ decodeMaxval := by
    rw [codes_drop coded beyond _ (blanks_codeLength coded)]
    exact of_decide_eq_false (getD_stop isCode (by decide) _)
  rw [decodeMaxval] at hgt
  omega

theorem plain_near (dec dec' : ℕ → ℕ) (i : ℕ)
    (h : ∀ k, k ≤ i/3*4+i%3+1 → dec k = dec' k) : plain dec i = plain dec' i := by
  have hmod := Nat.mod_lt i (show 0 < 3 by decide)
  simp only [plain]
  split_ifs with h0 h1
  · rw [h (i/3*4) (by omega), h (i/3*4+1) (by omega)]
  · rw [h (i/3*4+1) (by omega), h (i/3*4+2) (by omega)]
  · rw [h (i/3*4+2) (by omega), h (i/3*4+3) (by omega)]

theorem authText_eq (coded : AsciiText) (beyond authBuf : ℕ → UInt8) :
    authText coded beyond authBuf =
      cString ((List.range (httpdDecode coded beyond 100).nbytesdecoded).map fun i =>
        if i < 3*((loopLength coded 100+3)/4) then plain (codes coded beyond) i else authBuf i) := by
  rw [authText, decodedText, List.range_succ, List.map_append, List.map_singleton]
  change cString ((List.range _).map (after _ authBuf) ++ [after _ authBuf _]) = _
  rw [decode_after, if_pos rfl, cString_cut]
  congr 1
  apply List.map_congr_left
  intro i hi
  rw [decode_after, if_neg (Nat.ne_of_lt (List.mem_range.mp hi))]

theorem nbytesdecoded_eq (coded : AsciiText) (beyond : ℕ → UInt8) :
    (httpdDecode coded beyond 100).nbytesdecoded = decodedLength coded -
      if loopLength coded 100%4 = 0 then 0
      else if codes coded beyond (4*((loopLength coded 100+3)/4)-2) > decodeMaxval then 2 else 1 := by
  obtain ⟨hin, hnp, -, -⟩ := decode_loop coded beyond 100
  simp only [httpdDecode]
  rw [hin, hnp]
  by_cases hm : loopLength coded 100%4 = 0
  · rw [if_neg (by omega), if_pos hm, Nat.sub_zero]
  · rw [if_pos (by omega), if_neg hm,
      show blanks coded+4*((loopLength coded 100+3)/4)-2 =
        blanks coded+(4*((loopLength coded 100+3)/4)-2) by omega, ← codes]
    split_ifs <;> rfl

theorem loopLength_eq (coded : AsciiText) :
    loopLength coded 100 = if codeLength coded ≤ 133 then codeLength coded else 133 := by
  rw [loopLength, decodedLength]
  split_ifs <;> omega

theorem octet_reach (c n i : ℕ) (hi : i < n) (hn : n ≤ (c+3)/4*3) (h1 : c%4 ≠ 0 → n ≤ (c+3)/4*3-1)
    (h2 : c%4 = 2 → n ≤ (c+3)/4*3-2) :
    i/3*4+i%3+1 ≤ c ∨ (c%4 = 1 ∧ i/3*4+i%3+1 = c+1) := by
  have hm := Nat.mod_lt c (show 0 < 4 by decide)
  interval_cases hc : c%4
  · exact .inl (by omega)
  · have := h1 (by decide)
    omega
  · have := h2 rfl
    exact .inl (by omega)
  · have := h1 (by decide)
    exact .inl (by omega)

/-- What stands behind the NUL matters only for a dangling character. -/
theorem authText_same (coded : AsciiText) (beyond beyond' authBuf : ℕ → UInt8) (h : ¬ Dangling coded) :
    authText coded beyond authBuf = authText coded beyond' authBuf := by
  have hb := blanks_codeLength coded
  have hloop := loopLength_eq coded
  have hlen : decodedLength coded = (codeLength coded+3)/4*3 := rfl
  have hopen : codeLength coded%4 = 1 → codeLength coded ≤ 133 →
      blanks coded+codeLength coded+1 ≤ coded.text.length := by
    intro h1 h2
    by_contra hl
    exact h ⟨h1, h2, by omega⟩
  have hn : (httpdDecode coded beyond 100).nbytesdecoded =
      (httpdDecode coded beyond' 100).nbytesdecoded := by
    rw [nbytesdecoded_eq, nbytesdecoded_eq]
    by_cases hm : loopLength coded 100%4 = 0
    · rw [if_pos hm, if_pos hm]
    · rw [if_neg hm, if_neg hm, codes_same coded beyond beyond' _ (by split_ifs at hloop <;> omega)]
  -- with two characters the NUL cuts the octets that read behind it
  have htwo : codeLength coded%4 = 2 → codeLength coded ≤ 134 →
      (httpdDecode coded beyond' 100).nbytesdecoded = decodedLength coded-2 := by
    intro h1 h2
    have hplace : 4*((loopLength coded 100+3)/4)-2 = codeLength coded := by
      split_ifs at hloop <;> omega
    rw [nbytesdecoded_eq, if_neg (by split_ifs at hloop <;> omega), hplace, code_stop,
      if_pos (by decide)]
  have hlast : (httpdDecode coded beyond' 100).nbytesdecoded ≤ decodedLength coded := by
    rw [nbytesdecoded_eq]
    exact Nat.sub_le _ _
  have hone : loopLength coded 100%4 ≠ 0 →
      (httpdDecode coded beyond' 100).nbytesdecoded ≤ decodedLength coded-1 := by
    intro hm
    rw [nbytesdecoded_eq, if_neg hm]
    split_ifs <;> omega
  have hreach : ∀ i < (httpdDecode coded beyond' 100).nbytesdecoded, i < 3*((loopLength coded 100+3)/4) →
      blanks coded+(i/3*4+i%3+1) ≤ coded.text.length := by
    intro i hi hg
    by_cases hshort : codeLength coded ≤ 133
    · rw [if_pos hshort] at hloop
      rw [hloop] at hone
      rcases octet_reach _ _ i hi (hlen ▸ hlast) (hlen ▸ hone)
        (fun h2 => hlen ▸ Nat.le_of_eq (htwo h2 (by omega))) with hle | ⟨h1, heq⟩
      · exact Nat.le_trans (Nat.add_le_add_left hle _) hb
      · rw [heq, ← Nat.add_assoc]
        exact hopen h1 hshort
    · rw [if_neg hshort] at hloop
      rw [hloop] at hg
      by_cases h134 : codeLength coded = 134
      · rw [htwo (by omega) (by omega), hlen, h134] at hi
        clear * - hi hb h134
        omega
      · clear * - hg hb hshort h134
        omega
  rw [authText_eq, authText_eq, hn]
  refine congrArg cString (List.map_congr_left fun i hi => ?_)
  have hi := List.mem_range.mp hi
  by_cases hg : i < 3*((loopLength coded 100+3)/4)
  · rw [if_pos hg, if_pos hg]
    apply plain_near
    intro k hk
    apply codes_same
    exact Nat.le_trans (Nat.add_le_add_left hk _) (hreach i hi hg)
  · rw [if_neg hg, if_neg hg]

theorem codes_behind (coded : AsciiText) (beyond : ℕ → UInt8)
    (h : blanks coded+codeLength coded = coded.text.length) :
    codes coded beyond (codeLength coded+1) = pr2six (beyond 0) := by
  rw [codes, memory, ← Nat.add_assoc, h, List.getD_eq_default _ _ (by simp)]
  congr 2
  omega

theorem second_of_stop (x : ℕ) (h : x < 64) :
    UInt8.ofNat (64 <<< 4 ||| x >>> 2) = UInt8.ofNat (x >>> 2) := by
  have hx : x >>> 2 < 16 := by
    rw [Nat.shiftRight_eq_div_pow]
    omega
  apply UInt8.toNat_inj.mp
  rw [← Nat.shiftLeft_add_eq_or_of_lt hx, UInt8.toNat_ofNat', UInt8.toNat_ofNat', Nat.shiftLeft_eq]
  omega

theorem authText_dangling (coded : AsciiText) (beyond authBuf : ℕ → UInt8) (h : Dangling coded) :
    authText coded beyond authBuf = cString (fixedPart coded ++ [appended (beyond 0)]) := by
  obtain ⟨h1, h2, h3⟩ := h
  have hloop : loopLength coded 100 = codeLength coded := by rw [loopLength_eq, if_pos h2]
  have hlen : decodedLength coded = (codeLength coded+3)/4*3 := rfl
  have hplace : 4*((codeLength coded+3)/4)-2 = codeLength coded+1 := by omega
  have hfixed : ((List.range (decodedLength coded-2)).map fun i =>
      if i < 3*((loopLength coded 100+3)/4) then plain (codes coded beyond) i else authBuf i) =
        fixedPart coded := by
    apply List.map_congr_left
    intro i hi
    have hi := List.mem_range.mp hi
    rw [if_pos (by omega)]
    apply plain_near
    intro k hk
    exact codes_same coded _ _ k (by omega)
  rw [authText_eq, nbytesdecoded_eq, hloop, if_neg (by omega), hplace, codes_behind coded beyond h3,
    appended]
  rw [hloop] at hfixed
  by_cases hx : pr2six (beyond 0) ≤ decodeMaxval
  · have hlast : decodedLength coded-1 = decodedLength coded-2+1 := by omega
    rw [if_neg (Nat.not_lt.mpr hx), if_pos hx, hlast, List.range_succ, List.map_append, hfixed,
      List.map_singleton, if_pos (by omega)]
    congr 2
    have hdiv : (decodedLength coded-2)/3*4+1 = codeLength coded := by omega
    have hdiv' : (decodedLength coded-2)/3*4+2 = codeLength coded+1 := by omega
    simp only [plain, if_neg (show ¬ (decodedLength coded-2)%3 = 0 by omega),
      if_pos (show (decodedLength coded-2)%3 = 1 by omega), hdiv, hdiv', code_stop,
      codes_behind coded beyond h3]
    rw [second_of_stop _ (Nat.lt_succ_of_le hx)]
  · rw [if_pos (Nat.lt_of_not_le hx), if_neg hx, hfixed, cString_cut]

/-! ## The octet that is appended -/

theorem appended_small (c : UInt8) : (appended c).toNat < 16 := by
  rw [appended]
  split_ifs with h
  · rw [decodeMaxval] at h
    rw [UInt8.toNat_ofNat', Nat.shiftRight_eq_div_pow]
    omega
  · decide

theorem cString_concat (u : Text) (c : UInt8) :
    cString (u ++ [c]) = if 0 ∈ u then cString u else u ++ cString [c] := by
  induction u with
  | nil => rfl
  | cons d u ih =>
    rw [cString] at ih
    rw [List.cons_append, cString, cString, List.takeWhile_cons, List.takeWhile_cons, ih]
    by_cases hd : d = 0
    · simp [hd]
    · simp only [hd, ne_eq, not_false_eq_true, decide_true, if_true, List.mem_cons, Ne.symm hd,
        false_or]
      split_ifs <;> rfl

/-- No NUL comes before the octet that depends on what stands behind the string. -/
def LooksBehind (coded : AsciiText) : Prop := Dangling coded ∧ 0 ∉ fixedPart coded

instance (coded : AsciiText) : Decidable (LooksBehind coded) := inferInstanceAs (Decidable (_ ∧ _))

theorem authText_behind (coded : AsciiText) (beyond authBuf : ℕ → UInt8) (h : LooksBehind coded) :
    authText coded beyond authBuf = fixedPart coded ++ cString [appended (beyond 0)] := by
  rw [authText_dangling coded beyond authBuf h.1, cString_concat, if_neg h.2]

theorem authText_only (coded : AsciiText) (beyond beyond' authBuf : ℕ → UInt8)
    (h : LooksBehind coded → beyond 0 = beyond' 0) :
    authText coded beyond authBuf = authText coded beyond' authBuf := by
  by_cases hd : Dangling coded
  · rw [authText_dangling coded beyond authBuf hd, authText_dangling coded beyond' authBuf hd]
    by_cases h0 : 0 ∈ fixedPart coded
    · rw [cString_concat, cString_concat, if_pos h0, if_pos h0]
    · rw [h ⟨hd, h0⟩]
  · exact authText_same coded beyond beyond' authBuf hd

theorem colon_authText (coded : AsciiText) (beyond beyond' authBuf : ℕ → UInt8) :
    colon ∈ authText coded beyond authBuf ↔ colon ∈ authText coded beyond' authBuf := by
  by_cases h : LooksBehind coded
  · have hnot : ∀ c, colon ∉ cString [appended c] := by
      intro c hm
      have hsmall := appended_small c
      rw [← List.mem_singleton.mp ((List.takeWhile_prefix _).subset hm)] at hsmall
      exact absurd hsmall (by decide)
    rw [authText_behind coded beyond authBuf h, authText_behind coded beyond' authBuf h,
      List.mem_append, List.mem_append]
    simp only [hnot, or_false]
  · rw [authText_only coded beyond beyond' authBuf fun hl => absurd hl h]

theorem length_fixedPart (coded : AsciiText) (h : Dangling coded) : (fixedPart coded).length ≤ 100 := by
  obtain ⟨h1, h2, -⟩ := h
  have hlen : decodedLength coded = (codeLength coded+3)/4*3 := rfl
  rw [fixedPart, List.length_map, List.length_range]
  omega

end FasterConfig.HttpdDangling
