import FasterConfig.HttpdOutput
import FasterConfig.Memory

/-!
# The text of a page

The loop moves four cursors and leaves a value to `strcpy`, whose end it
looks for in the buffer. Read at the end up to its NUL, the buffer holds the
template with every known reference replaced by its first value, as long as
that fits and the names are short.
-/

set_option autoImplicit false

namespace FasterConfig.HttpdExpand
open FasterConfig.Octets (calloc)
open FasterConfig.Memory FasterConfig.Strings FasterConfig.HttpdVariables
open FasterConfig.HttpdOutput hiding httpdOutput

abbrev CText := { s : Text // 0 ∉ s }

def stringAt (mem : Mem) (p size : ℕ) : Text := cString (slice mem p (size-p))

def strlen (mem : Mem) (p size : ℕ) : ℕ := (stringAt mem p size).length

/-- `*cp++ = *tmp++` while `count2` lets it, and the NUL; `cp` stands `count2` octets behind
the start of `varName`. -/
def readName (varName : Mem) (count2 : ℕ) : Text → Mem
  | [] => store varName count2 [0]
  | c::tmp =>
    if isNameChar c ∧ count2 < varNameSize then
      readName (store varName count2 [c]) (count2+1) tmp
    else store varName count2 [0]

structure Cursors where
  src : Text
  buf : Mem
  dest : ℕ
  varName : Mem
  count : ℕ

/-- `*dest++ = *src++; count++;` -/
def keep (c : UInt8) (rest : Text) (s : Cursors) : Cursors :=
  { s with src := rest, buf := store s.buf s.dest [c], dest := s.dest+1, count := s.count+1 }

def substitute (value name rest : Text) (s : Cursors) : Cursors :=
  let buf := store s.buf s.dest (value ++ [0])
  let dest := s.dest+strlen buf s.dest httpMaxLen
  { s with src := rest.drop name.length, buf := buf, dest := dest
           count := s.count+strlen buf dest httpMaxLen }

/-- `curVar` is none where no variable has the name or its value is held back. -/
def expandStep (vars : Variables CText) (s : Cursors) : Cursors :=
  match s.src with
  | [] => s
  | c::rest =>
    if c = dollar then
      let s := { s with varName := readName s.varName 0 rest }
      -- a full name has its NUL behind the array
      let name := stringAt s.varName 0 (varNameSize+1)
      let curVar := (httpdGetVariableByName vars name).filter fun curVar =>
        s.count+curVar.value.val.length < httpMaxLen
      curVar.elim (keep c rest s) fun curVar => substitute curVar.value name rest s
    else keep c rest s

theorem expandStep_shorter (vars : Variables CText) (s : Cursors) (h : s.src ≠ []) :
    (expandStep vars s).src.length < s.src.length := by
  obtain ⟨src, buf, dest, varName, count⟩ := s
  cases src with
  | nil => exact absurd rfl h
  | cons c rest =>
    simp only [expandStep]
    split_ifs
    · cases Option.filter _ _ with
      | none => exact Nat.lt_succ_self _
      | some curVar =>
        simp only [Option.elim_some, substitute, List.length_drop, List.length_cons]
        omega
    · exact Nat.lt_succ_self _

def expandLoop (vars : Variables CText) (s : Cursors) : Cursors :=
  if h : s.src ≠ [] ∧ s.count < httpMaxLen then
    have := expandStep_shorter vars s h.1
    expandLoop vars (expandStep vars s)
  else s
termination_by s.src.length

/-- What is written to the socket; `varName` holds anything, and so does what is behind `buf`. -/
def httpdOutput (vars : Variables CText) (msg : CText) (varName behind : Mem) : Text :=
  let s := expandLoop vars ⟨msg, load (calloc httpMaxLen) behind, 0, varName, 0⟩
  stringAt (store s.buf s.dest [0]) 0 httpMaxLen

/-! ## Strings in arrays -/

theorem stringAt_held (mem : Mem) (p size : ℕ) (s : Text) (h0 : 0 ∉ s) (h : Holds mem p (s ++ [0]))
    (hs : p+s.length < size) : stringAt mem p size = s := by
  obtain ⟨k, hk⟩ := Nat.exists_eq_add_of_lt hs
  have hn : size-p = (s ++ [0]).length+k := by
    rw [List.length_append, List.length_singleton]
    omega
  rw [Holds] at h
  rw [stringAt, hn, slice_add, h, List.append_assoc, List.singleton_append, cString_append s _ h0]

theorem readName_eq (varName : Mem) (count2 : ℕ) (tmp : Text) :
    readName varName count2 tmp =
      store varName count2 ((tmp.takeWhile isNameChar).take (varNameSize-count2) ++ [0]) := by
  induction tmp generalizing varName count2 with
  | nil => rw [readName, List.takeWhile_nil, List.take_nil, List.nil_append]
  | cons c tmp ih =>
    rw [readName]
    by_cases hc : isNameChar c = true
    · rw [List.takeWhile_cons_of_pos hc]
      by_cases hn : count2 < varNameSize
      · rw [if_pos ⟨hc, hn⟩, ih, show varNameSize-count2 = (varNameSize-(count2+1))+1 by omega,
          List.take_succ_cons]
        rfl
      · rw [if_neg fun h => hn h.2, Nat.sub_eq_zero_of_le (Nat.le_of_not_lt hn), List.take_zero,
          List.nil_append]
    · rw [List.takeWhile_cons_of_neg hc, if_neg fun h => hc h.1, List.take_nil, List.nil_append]

theorem readName_name (varName : Mem) (rest : Text) :
    stringAt (readName varName 0 rest) 0 (varNameSize+1) = scanName rest := by
  have hname : 0 ∉ scanName rest := by
    intro h
    have hc := List.mem_takeWhile_imp (List.mem_of_mem_take h)
    exact absurd hc (by decide)
  rw [readName_eq]
  apply stringAt_held _ _ _ _ hname (holds_store _ _ _)
  rw [Nat.zero_add, scanName, List.length_take]
  omega

/-! ## One pass -/

def values (vars : Variables CText) (name : Text) : Option Text :=
  (firstValue vars name).map Subtype.val

structure Shows (s : Cursors) (t : OutState) : Prop where
  src : s.src = t.src
  held : Holds s.buf 0 t.dest
  dest : s.dest = t.dest.length
  count : s.count = t.count

theorem shows_keep (s : Cursors) (t : OutState) (c : UInt8) (rest : Text) (writes : List Cell)
    (h : Shows s t) : Shows (keep c rest s) ⟨rest, t.dest ++ [c], t.count+1, writes⟩ where
  src := rfl
  held := by
    have hh := holds_store_behind s.buf 0 t.dest [c] h.held
    rwa [Nat.zero_add, ← h.dest] at hh
  dest := by
    rw [List.length_append, ← h.dest]
    rfl
  count := congrArg (· + 1) h.count

theorem shows_substitute (s : Cursors) (t : OutState) (value name rest : Text)
    (writes : List Cell) (h : Shows s t) (h0 : 0 ∉ value)
    (hv : t.dest.length+value.length < httpMaxLen) :
    Shows (substitute value name rest s)
      ⟨rest.drop name.length, t.dest ++ value, t.count+0, writes⟩ := by
  have hd := h.dest
  have hall := holds_store s.buf s.dest (value ++ [0])
  have hlen : strlen (store s.buf s.dest (value ++ [0])) s.dest httpMaxLen = value.length := by
    rw [strlen, stringAt_held _ _ _ value h0 hall (by omega)]
  have hend : strlen (store s.buf s.dest (value ++ [0])) (s.dest+value.length) httpMaxLen = 0 := by
    have hnul := ((holds_append _ _ _ _).mp hall).2
    rw [strlen, stringAt_held _ _ _ [] (by simp) hnul (by rw [List.length_nil]; omega)]
    rfl
  have hheld := holds_store_behind s.buf 0 t.dest (value ++ [0]) h.held
  rw [Nat.zero_add, ← hd, ← List.append_assoc, holds_append] at hheld
  constructor
  · rfl
  · exact hheld.1
  · rw [substitute, hlen, hd, List.length_append]
  · rw [substitute, hlen, hend, h.count]

theorem shows_step (vars : Variables CText) (s : Cursors) (t : OutState) (h : Shows s t)
    (hfit : (outputStep (values vars) t).dest.length < httpMaxLen) :
    Shows (expandStep vars s) (outputStep (values vars) t) := by
  obtain ⟨src, dest, count, writes⟩ := t
  cases src with
  | nil =>
    rw [expandStep, h.src]
    exact h
  | cons c rest =>
    by_cases hc : c = dollar
    · have hread : Shows { s with varName := readName s.varName 0 rest } ⟨c::rest, dest, count, writes⟩ :=
        ⟨h.src, h.held, h.dest, h.count⟩
      have he : expansion (values vars) count c rest =
          ((httpdGetVariableByName vars (scanName rest)).filter fun curVar =>
            s.count+curVar.value.val.length < httpMaxLen).map fun curVar => curVar.value.val := by
        rw [expansion, if_pos hc, values, firstValue, h.count]
        cases httpdGetVariableByName vars (scanName rest) <;> simp [Option.filter, apply_ite]
      simp only [expandStep, h.src, if_pos hc, readName_name]
      simp only [outputStep, he] at hfit ⊢
      cases hf : (httpdGetVariableByName vars (scanName rest)).filter fun curVar =>
          s.count+curVar.value.val.length < httpMaxLen with
      | none => exact shows_keep _ _ c rest _ hread
      | some curVar =>
        simp only [hf, Option.map_some, List.length_append] at hfit
        exact shows_substitute _ _ _ _ rest _ hread curVar.value.property hfit
    · have he : expansion (values vars) count c rest = none := if_neg hc
      simp only [expandStep, h.src, if_neg hc, outputStep, he]
      exact shows_keep s _ c rest _ h

/-! ## A whole run -/

theorem loop_shows (vars : Variables CText) (s : Cursors) (t : OutState) (h : Shows s t)
    (hc : t.count ≤ t.dest.length) (hfit : Fits (values vars) t) :
    Shows (expandLoop vars s) (outputLoop (values vars) t) := by
  induction t using loop_induction (values vars) generalizing s with
  | stop t hstop =>
    rw [outputLoop_stop _ t hstop, expandLoop, dif_neg]
    · exact h
    · rw [h.src, h.count]
      rintro ⟨hs, hn⟩
      exact hstop.elim hs fun hm => absurd hn (Nat.not_lt.mpr hm)
  | step t hs hn ih =>
    have hfits := (step_fits_iff (values vars) t).mpr hfit
    rw [outputLoop_step _ t hs hn, expandLoop,
      dif_pos (by rw [h.src, h.count]; exact ⟨hs, hn⟩)]
    apply ih
    · exact shows_step vars s t h (lt_of_le_of_lt (Nat.le_add_right _ _) hfits.2.2)
    · exact step_count_le _ t hc
    · exact hfits

def pieceText : Piece → Text
  | .keep c => [c]
  | .put value => value

def piecesText (ps : List Piece) : Text := ps.flatMap pieceText

theorem length_piecesText (ps : List Piece) : (piecesText ps).length = width ps := by
  induction ps with
  | nil => rfl
  | cons p ps ih =>
    rw [piecesText, List.flatMap_cons, List.length_append, ← piecesText, ih, width]
    cases p <;> rfl

theorem step_text (lookup : Text → Option Text) (t : OutState) (h : ShortNames t.src) :
    (outputStep lookup t).dest ++
        piecesText (pieces lookup (outputStep lookup t).count (outputStep lookup t).src) =
      t.dest ++ piecesText (pieces lookup t.count t.src) := by
  obtain ⟨src, dest, count, writes⟩ := t
  cases src with
  | nil => rfl
  | cons c rest =>
    rw [pieces_cons lookup count c rest ((shortNames_cons c rest).mp h).1]
    simp only [outputStep]
    cases expansion lookup count c rest <;> simp [piecesText, pieceText]

theorem loop_text (lookup : Text → Option Text) (t : OutState) (hc : t.count ≤ t.dest.length)
    (hfit : Fits lookup t) :
    (outputLoop lookup t).dest = t.dest ++ piecesText (pieces lookup t.count t.src) := by
  induction t using loop_induction lookup with
  | stop t hstop =>
    have hlt : t.count < httpMaxLen := lt_of_le_of_lt hc (lt_of_le_of_lt (Nat.le_add_right _ _) hfit.2.2)
    rw [outputLoop_stop lookup t hstop, hstop.resolve_right (Nat.not_le.mpr hlt), pieces]
    exact (List.append_nil _).symm
  | step t hs hn ih =>
    rw [outputLoop_step lookup t hs hn, ← step_text lookup t hfit.2.1]
    exact ih (step_count_le lookup t hc) ((step_fits_iff lookup t).mpr hfit)

def NoNul (t : OutState) : Prop := 0 ∉ t.src ∧ 0 ∉ t.dest

theorem step_no_nul (lookup : Text → Option Text) (hv : ∀ n v, lookup n = some v → 0 ∉ v)
    (t : OutState) (h : NoNul t) : NoNul (outputStep lookup t) := by
  obtain ⟨src, dest, count, writes⟩ := t
  cases src with
  | nil => exact h
  | cons c rest =>
    obtain ⟨hsrc, hdest⟩ := h
    rw [List.mem_cons, not_or] at hsrc
    simp only [outputStep]
    cases he : expansion lookup count c rest with
    | none =>
      constructor
      · exact hsrc.2
      · exact fun hm => (List.mem_append.mp hm).elim hdest fun h0 => hsrc.1 (List.mem_singleton.mp h0)
    | some value =>
      have hvalue := hv _ value (expansion_known lookup count c rest value he).2
      constructor
      · exact fun hm => hsrc.2 (List.mem_of_mem_drop hm)
      · exact fun hm => (List.mem_append.mp hm).elim hdest hvalue

theorem loop_no_nul (lookup : Text → Option Text) (hv : ∀ n v, lookup n = some v → 0 ∉ v)
    (t : OutState) (h : NoNul t) : NoNul (outputLoop lookup t) := by
  induction t using loop_induction lookup with
  | stop t hstop =>
    rw [outputLoop_stop lookup t hstop]
    exact h
  | step t hs hn ih =>
    rw [outputLoop_step lookup t hs hn]
    exact ih (step_no_nul lookup hv t h)

theorem values_no_nul (vars : Variables CText) (n v : Text) (h : values vars n = some v) : 0 ∉ v := by
  obtain ⟨w, -, rfl⟩ := Option.map_eq_some_iff.mp h
  exact w.property

theorem body_pieces (lookup : Text → Option Text) (msg : Text) (h : AllInside (HttpdOutput.httpdOutput lookup msg).writes) :
    (HttpdOutput.httpdOutput lookup msg).body = piecesText (pieces lookup 0 msg) :=
  loop_text lookup _ (Nat.le_refl _) ((start_fits lookup msg).mpr ((page_inside_iff lookup msg).mp h))

theorem output_body (vars : Variables CText) (msg : CText) (varName behind : Mem)
    (h : AllInside (HttpdOutput.httpdOutput (values vars) msg).writes) :
    httpdOutput vars msg varName behind = (HttpdOutput.httpdOutput (values vars) msg).body := by
  have hfit := (start_fits (values vars) msg).mpr ((page_inside_iff (values vars) msg).mp h)
  have hshow : Shows ⟨msg, load (calloc httpMaxLen) behind, 0, varName, 0⟩
      ⟨msg, [], 0, bufCells 0 httpMaxLen⟩ := ⟨rfl, holds_nil _ _, rfl, rfl⟩
  have hrun := loop_shows vars _ _ hshow (Nat.le_refl _) hfit
  have hheld := holds_store_behind _ 0 _ [0] hrun.held
  rw [Nat.zero_add, ← hrun.dest] at hheld
  apply stringAt_held _ _ _ _ _ hheld
  · rw [Nat.zero_add]
    exact ((loop_fits_iff (values vars) _ (Nat.le_refl _)).mpr hfit).2
  · exact (loop_no_nul (values vars) (values_no_nul vars) _ ⟨msg.property, List.not_mem_nil⟩).2

/-! ## The expansion -/

def reference (lookup : Text → Option Text) (c : UInt8) (rest : Text) : Option Text :=
  if c = dollar then lookup (nameAt rest) else none

/-- Left to right, each `$` with its name is replaced by the value stored for it; where there
is none the `$` stays and reading goes on behind it. -/
def expand (lookup : Text → Option Text) (template : Text) : Text :=
  match template with
  | [] => []
  | c::rest =>
    match reference lookup c rest with
    | some value => value ++ expand lookup (rest.drop (nameAt rest).length)
    | none => c::expand lookup rest
termination_by template.length
decreasing_by all_goals simp only [List.length_drop, List.length_cons]; omega

theorem pieces_reference (lookup : Text → Option Text) (kept : ℕ) (c : UInt8) (rest : Text) :
    pieces lookup kept (c::rest) = match reference lookup c rest with
      | some value =>
        if kept+value.length < httpMaxLen then
          .put value::pieces lookup kept (rest.drop (nameAt rest).length)
        else .keep c::pieces lookup (kept+1) rest
      | none => .keep c::pieces lookup (kept+1) rest := by
  rw [pieces]
  rfl

theorem piecesText_expand (lookup : Text → Option Text) (kept : ℕ) (template : Text)
    (h : kept+(expand lookup template).length < httpMaxLen) :
    piecesText (pieces lookup kept template) = expand lookup template := by
  induction template using expand.induct lookup generalizing kept with
  | case1 => rw [pieces, expand]; rfl
  | case2 c rest value hv ih =>
    simp only [expand, hv, List.length_append] at h
    have hfits : kept+value.length < httpMaxLen := by omega
    have hrest := ih kept (by omega)
    simp only [pieces_reference, expand, hv, if_pos hfits, ← hrest]
    rfl
  | case3 c rest hv ih =>
    simp only [expand, hv, List.length_cons] at h
    have hrest := ih (kept+1) (by omega)
    simp only [pieces_reference, expand, hv, ← hrest]
    rfl

/-- What is written is the expansion of the template. -/
theorem output_expands (vars : Variables CText) (msg : CText) (varName behind : Mem)
    (hn : ShortNames msg) (hl : (expand (values vars) msg).length < httpMaxLen) :
    (∀ w ∈ (HttpdOutput.httpdOutput (values vars) msg).writes, w.Inside) ∧
      httpdOutput vars msg varName behind = expand (values vars) msg := by
  have htext := piecesText_expand (values vars) 0 msg (by rwa [Nat.zero_add])
  have hinside : AllInside (HttpdOutput.httpdOutput (values vars) msg).writes := by
    rw [page_inside_iff, ← length_piecesText, htext]
    exact ⟨hn, hl⟩
  constructor
  · exact hinside
  · rw [output_body vars msg varName behind hinside, body_pieces _ _ hinside, htext]

def twice : Variables CText := [⟨[0x76], ⟨[0x24, 0x76, 0x21], by decide⟩, []⟩] -- v is $v!

theorem known_name_expanded :
    httpdOutput twice ⟨[0x24, 0x76, 0x24, 0x77], by decide⟩ (fun _ => 0x78) (fun _ => 0x78) =
      [0x24, 0x76, 0x21, 0x24, 0x77] :=
  (output_expands twice ⟨[0x24, 0x76, 0x24, 0x77], by decide⟩ (fun _ => 0x78) (fun _ => 0x78)
    (by decide) (by decide +kernel)).2.trans (by decide +kernel)

end FasterConfig.HttpdExpand
