import FasterConfig.HttpdVariables
import Mathlib.Data.List.Infix

/-!
# Output of a page

The template is copied octet by octet into a buffer of fixed size, with
variables expanded. The loop is bounded by a count that leaves the expanded
values out, the array for the name of a variable has no room for the NUL of
a full name, and a full buffer has none for its own. All writes are recorded.
-/

set_option autoImplicit false

namespace FasterConfig.HttpdOutput
open FasterConfig.Strings FasterConfig.HttpdVariables

def httpMaxLen : ℕ := 10240

def varNameSize : ℕ := 80

def dollar : UInt8 := 0x24

def isNameChar (c : UInt8) : Bool :=
  (0x30 ≤ c ∧ c ≤ 0x39) ∨ (0x41 ≤ c ∧ c ≤ 0x5a) ∨ (0x61 ≤ c ∧ c ≤ 0x7a) ∨ c = 0x5f

inductive Cell where
  | buf (i : ℕ)
  | varName (i : ℕ)
  deriving DecidableEq, Repr

def Cell.Inside : Cell → Prop
  | .buf i => i < httpMaxLen
  | .varName i => i < varNameSize

instance : DecidablePred Cell.Inside
  | .buf i => inferInstanceAs (Decidable (i < httpMaxLen))
  | .varName i => inferInstanceAs (Decidable (i < varNameSize))

def bufCells (start n : ℕ) : List Cell := (List.range' start n).map Cell.buf

def varNameCells (name : Text) : List Cell := (List.range' 0 (name.length+1)).map Cell.varName

/-- `dest` is what `buf` holds in front of the pointer of that name. -/
structure OutState where
  src : Text
  dest : Text
  count : ℕ
  writes : List Cell

/-- The name behind a `$`, at most as many characters as `varName` has. -/
def scanName (rest : Text) : Text := (rest.takeWhile isNameChar).take varNameSize

/-- The value put in for `c` in front of `rest`: `c` is a `$`, the name is known and count
and value together stay below the size. -/
def expansion (lookup : Text → Option Text) (count : ℕ) (c : UInt8) (rest : Text) : Option Text :=
  if c = dollar then (lookup (scanName rest)).filter fun value => count+value.length < httpMaxLen
  else none

def scannedCells (c : UInt8) (rest : Text) : List Cell :=
  if c = dollar then varNameCells (scanName rest) else []

def outputStep (lookup : Text → Option Text) (s : OutState) : OutState :=
  match s.src with
  | [] => s
  | c::rest =>
    match expansion lookup s.count c rest with
    | some value =>
      -- `count += strlen(dest)` with `dest` already at the NUL that `strcpy` wrote
      { src := rest.drop (scanName rest).length
        dest := s.dest ++ value
        count := s.count+0
        writes := s.writes ++ (scannedCells c rest ++ bufCells s.dest.length (value.length+1)) }
    | none =>
      { src := rest
        dest := s.dest ++ [c]
        count := s.count+1
        writes := s.writes ++ (scannedCells c rest ++ bufCells s.dest.length 1) }

theorem outputStep_shorter (lookup : Text → Option Text) (s : OutState) (h : s.src ≠ []) :
    (outputStep lookup s).src.length < s.src.length := by
  obtain ⟨src, dest, count, writes⟩ := s
  cases src with
  | nil => exact absurd rfl h
  | cons c rest =>
    simp only [outputStep]
    split <;> simp only [List.length_drop, List.length_cons] <;> omega

def outputLoop (lookup : Text → Option Text) (s : OutState) : OutState :=
  if h : s.src ≠ [] ∧ s.count < httpMaxLen then
    have := outputStep_shorter lookup s h.1
    outputLoop lookup (outputStep lookup s)
  else s
termination_by s.src.length

/-- What `buf` holds at the end, as if it had no end, and all writes. -/
structure Page where
  body : Text
  writes : List Cell

def httpdOutput (lookup : Text → Option Text) (msg : Text) : Page :=
  let s := outputLoop lookup ⟨msg, [], 0, bufCells 0 httpMaxLen⟩
  ⟨s.dest, s.writes ++ bufCells s.dest.length 1⟩

theorem outputLoop_stop (lookup : Text → Option Text) (s : OutState)
    (h : s.src = [] ∨ httpMaxLen ≤ s.count) : outputLoop lookup s = s := by
  rw [outputLoop, dif_neg]
  rintro ⟨hs, hc⟩
  rcases h with h | h
  · exact hs h
  · omega

theorem outputLoop_step (lookup : Text → Option Text) (s : OutState) (hs : s.src ≠ [])
    (hc : s.count < httpMaxLen) : outputLoop lookup s = outputLoop lookup (outputStep lookup s) := by
  rw [outputLoop, dif_pos ⟨hs, hc⟩]

/-- To prove something of every state of the loop, prove it where the loop stops and carry
it back over one pass. -/
theorem loop_induction {P : OutState → Prop} (lookup : Text → Option Text)
    (stop : ∀ s, s.src = [] ∨ httpMaxLen ≤ s.count → P s)
    (step : ∀ s, s.src ≠ [] → s.count < httpMaxLen → P (outputStep lookup s) → P s)
    (s : OutState) : P s := by
  by_cases h : s.src = [] ∨ httpMaxLen ≤ s.count
  · exact stop s h
  · rw [not_or, Nat.not_le] at h
    have := outputStep_shorter lookup s h.1
    exact step s h.1 h.2 (loop_induction lookup stop step _)
termination_by s.src.length

/-! ## What a template is read as -/

inductive Piece where
  | keep (c : UInt8)
  | put (value : Text)
  deriving DecidableEq, Repr

def Piece.width : Piece → ℕ
  | .keep _ => 1
  | .put value => value.length

def width : List Piece → ℕ
  | [] => 0
  | p::ps => p.width+width ps

def nameAt (rest : Text) : Text := rest.takeWhile isNameChar

/-- A `$` with its name is read as the value stored for the name, if characters kept so far
and value together are fewer than the size; all other characters stay. -/
def pieces (lookup : Text → Option Text) (kept : ℕ) (template : Text) : List Piece :=
  match template with
  | [] => []
  | c::rest =>
    match if c = dollar then lookup (nameAt rest) else none with
    | some value =>
      if kept+value.length < httpMaxLen then
        .put value::pieces lookup kept (rest.drop (nameAt rest).length)
      else .keep c::pieces lookup (kept+1) rest
    | none => .keep c::pieces lookup (kept+1) rest
termination_by template.length
decreasing_by all_goals simp only [List.length_drop, List.length_cons]; omega

/-- Every `$` is followed by fewer name characters than `varName` has room for. -/
def ShortNames (template : Text) : Prop :=
  ∀ rest, dollar::rest <:+ template → (nameAt rest).length < varNameSize

/-! ## Writes -/

def AllInside (writes : List Cell) : Prop := ∀ w ∈ writes, w.Inside

instance : DecidablePred AllInside := fun writes =>
  inferInstanceAs (Decidable (∀ w ∈ writes, w.Inside))

theorem allInside_append (xs ys : List Cell) : AllInside (xs ++ ys) ↔ AllInside xs ∧ AllInside ys :=
  List.forall_mem_append

theorem allInside_nil : AllInside [] := by simp [AllInside]

theorem allInside_buf (start n : ℕ) : AllInside (bufCells start (n+1)) ↔ start+n < httpMaxLen := by
  rw [AllInside, bufCells, List.forall_mem_map]
  simp only [Cell.Inside, range_below_iff]
  omega

theorem allInside_varName (name : Text) : AllInside (varNameCells name) ↔ name.length < varNameSize := by
  rw [AllInside, varNameCells, List.forall_mem_map]
  simp only [Cell.Inside, range_below_iff]
  omega

theorem length_scanName (rest : Text) :
    (scanName rest).length < varNameSize ↔ (nameAt rest).length < varNameSize := by
  rw [scanName, List.length_take, nameAt]
  omega

theorem scanName_short (rest : Text) (h : (nameAt rest).length < varNameSize) :
    scanName rest = nameAt rest := List.take_of_length_le (by rw [nameAt] at h; omega)

theorem shortNames_cons (c : UInt8) (rest : Text) :
    ShortNames (c::rest) ↔ (c = dollar → (nameAt rest).length < varNameSize) ∧ ShortNames rest := by
  simp only [ShortNames, List.suffix_cons_iff, List.cons.injEq]
  constructor
  · exact fun h => ⟨fun hc => h rest (.inl ⟨hc.symm, rfl⟩), fun r hr => h r (.inr hr)⟩
  · rintro ⟨h1, h2⟩ r (⟨hc, rfl⟩ | hr)
    · exact h1 hc.symm
    · exact h2 r hr

theorem shortNames_nil : ShortNames [] := fun _ hr => absurd (List.suffix_nil.mp hr) (List.cons_ne_nil _ _)

instance decidableShortNames : DecidablePred ShortNames
  | [] => isTrue shortNames_nil
  | c::rest =>
    have := decidableShortNames rest
    decidable_of_iff' _ (shortNames_cons c rest)

theorem shortNames_drop (rest : Text) :
    ShortNames (rest.drop (nameAt rest).length) ↔ ShortNames rest := by
  induction rest with
  | nil => rfl
  | cons c rest ih =>
    by_cases hc : isNameChar c = true
    · have hd : c ≠ dollar := fun he => absurd hc (by rw [he]; decide)
      rw [nameAt, List.takeWhile_cons_of_pos hc, List.length_cons, List.drop_succ_cons, ← nameAt, ih,
        shortNames_cons, and_iff_right (fun he => absurd he hd)]
    · rw [nameAt, List.takeWhile_cons_of_neg hc]
      rfl

theorem pieces_cons (lookup : Text → Option Text) (kept : ℕ) (c : UInt8) (rest : Text)
    (h : c = dollar → (nameAt rest).length < varNameSize) :
    pieces lookup kept (c::rest) = match expansion lookup kept c rest with
      | some value => .put value::pieces lookup kept (rest.drop (scanName rest).length)
      | none => .keep c::pieces lookup (kept+1) rest := by
  rw [pieces, expansion]
  by_cases hc : c = dollar
  · rw [if_pos hc, if_pos hc, scanName_short rest (h hc)]
    cases lookup (nameAt rest) with
    | none => rfl
    | some value => by_cases hv : kept+value.length < httpMaxLen <;> simp [Option.filter, hv]
  · rw [if_neg hc, if_neg hc]

theorem expansion_known (lookup : Text → Option Text) (count : ℕ) (c : UInt8) (rest value : Text)
    (h : expansion lookup count c rest = some value) :
    c = dollar ∧ lookup (scanName rest) = some value := by
  rw [expansion] at h
  split_ifs at h with hc
  exact ⟨hc, Option.eq_some_of_filter_eq_some h⟩

def Fits (lookup : Text → Option Text) (s : OutState) : Prop :=
  AllInside s.writes ∧ ShortNames s.src ∧
    s.dest.length+width (pieces lookup s.count s.src) < httpMaxLen

theorem allInside_scanned (c : UInt8) (rest : Text) :
    AllInside (scannedCells c rest) ↔ (c = dollar → (nameAt rest).length < varNameSize) := by
  unfold scannedCells
  split_ifs with hc
  · rw [allInside_varName, length_scanName, forall_prop_of_true hc]
  · exact iff_of_true allInside_nil fun he => absurd he hc

theorem step_fits_iff (lookup : Text → Option Text) (s : OutState) :
    Fits lookup (outputStep lookup s) ↔ Fits lookup s := by
  obtain ⟨src, dest, count, writes⟩ := s
  cases src with
  | nil => exact Iff.rfl
  | cons c rest =>
    by_cases hs : c = dollar → (nameAt rest).length < varNameSize
    · have hp := pieces_cons lookup count c rest hs
      cases he : expansion lookup count c rest with
      | none =>
        simp only [he] at hp
        simp only [Fits, outputStep, he, hp, allInside_append, allInside_scanned, allInside_buf _ 0,
          shortNames_cons, width, Piece.width, List.length_append, List.length_cons, List.length_nil]
        constructor
        · rintro ⟨⟨h1, -⟩, h2, h3⟩
          exact ⟨h1, ⟨hs, h2⟩, by omega⟩
        · rintro ⟨h1, ⟨-, h2⟩, h3⟩
          exact ⟨⟨h1, hs, by omega⟩, h2, by omega⟩
      | some value =>
        have hd := (expansion_known lookup count c rest value he).1
        simp only [he] at hp
        simp only [Fits, outputStep, he, hp, allInside_append, allInside_scanned, allInside_buf,
          shortNames_cons, width, Piece.width, List.length_append, Nat.add_zero]
        rw [scanName_short rest (hs hd), shortNames_drop]
        constructor
        · rintro ⟨⟨h1, -⟩, h2, h3⟩
          exact ⟨h1, ⟨hs, h2⟩, by omega⟩
        · rintro ⟨h1, ⟨-, h2⟩, h3⟩
          exact ⟨⟨h1, hs, by omega⟩, h2, by omega⟩
    · apply iff_of_false
      · intro h
        have hw : AllInside (scannedCells c rest) := by
          have h1 := h.1
          cases he : expansion lookup count c rest <;>
            simp only [outputStep, he, allInside_append] at h1 <;> exact h1.2.1
        exact hs ((allInside_scanned c rest).mp hw)
      · exact fun h => hs ((shortNames_cons c rest).mp h.2.1).1

theorem step_count_le (lookup : Text → Option Text) (s : OutState) (h : s.count ≤ s.dest.length) :
    (outputStep lookup s).count ≤ (outputStep lookup s).dest.length := by
  obtain ⟨src, dest, count, writes⟩ := s
  cases src with
  | nil => exact h
  | cons c rest =>
    simp only [outputStep]
    split <;> simp only [List.length_append, List.length_cons, List.length_nil] at * <;> omega

theorem width_pieces_le (lookup : Text → Option Text) (bound : ℕ)
    (hb : ∀ name value, lookup name = some value → value.length ≤ bound) (kept : ℕ) (template : Text) :
    width (pieces lookup kept template) ≤ template.length+template.count dollar*bound := by
  fun_induction pieces lookup kept template with
  | case1 kept => exact Nat.zero_le _
  | case2 kept c rest value hv hfits ih =>
    split_ifs at hv with hc
    have hvalue := hb _ value hv
    have hshort := (List.drop_sublist (nameAt rest).length rest).length_le
    have hfew : (rest.drop (nameAt rest).length).count dollar*bound ≤ rest.count dollar*bound :=
      Nat.mul_le_mul_right bound ((List.drop_sublist _ rest).count_le dollar)
    rw [width, Piece.width, hc, List.count_cons_self, List.length_cons, Nat.succ_mul]
    omega
  | case3 kept c rest value hv hfits ih =>
    have hfew : rest.count dollar*bound ≤ (c::rest).count dollar*bound :=
      Nat.mul_le_mul_right bound ((List.sublist_cons_self c rest).count_le dollar)
    rw [width, Piece.width, List.length_cons]
    omega
  | case4 kept c rest hv ih =>
    have hfew : rest.count dollar*bound ≤ (c::rest).count dollar*bound :=
      Nat.mul_le_mul_right bound ((List.sublist_cons_self c rest).count_le dollar)
    rw [width, Piece.width, List.length_cons]
    omega

theorem loop_fits_iff (lookup : Text → Option Text) (s : OutState) (h : s.count ≤ s.dest.length) :
    AllInside (outputLoop lookup s).writes ∧ (outputLoop lookup s).dest.length < httpMaxLen ↔
      Fits lookup s := by
  induction s using loop_induction lookup with
  | stop s hstop =>
    rw [outputLoop_stop lookup s hstop, Fits]
    rcases hstop with hs | hc
    · rw [hs, pieces]
      exact and_congr_right fun _ => (and_iff_right shortNames_nil).symm
    · exact iff_of_false (fun hb => absurd hb.2 (by omega)) fun hb => absurd hb.2.2 (by omega)
  | step s hs hc ih =>
    rw [outputLoop_step lookup s hs hc, ih (step_count_le lookup s h), step_fits_iff]

theorem start_fits (lookup : Text → Option Text) (msg : Text) :
    Fits lookup ⟨msg, [], 0, bufCells 0 httpMaxLen⟩ ↔
      ShortNames msg ∧ width (pieces lookup 0 msg) < httpMaxLen := by
  have hzero : AllInside (bufCells 0 httpMaxLen) := (allInside_buf 0 (httpMaxLen-1)).mpr (by decide)
  rw [Fits, and_iff_right hzero, List.length_nil, Nat.zero_add]

theorem page_inside_iff (lookup : Text → Option Text) (msg : Text) :
    AllInside (httpdOutput lookup msg).writes ↔
      ShortNames msg ∧ width (pieces lookup 0 msg) < httpMaxLen := by
  rw [← start_fits, ← loop_fits_iff lookup _ (Nat.le_refl _), httpdOutput, allInside_append,
    allInside_buf _ 0]
  rfl

/-- All writes are inside their arrays exactly when every name behind a `$` leaves room for
its NUL, and the characters kept and the values put in leave room for theirs. -/
theorem output_inside_iff (vars : Variables Text) (msg : Text) :
    (∀ w ∈ (httpdOutput (firstValue vars) msg).writes, w.Inside) ↔
      ShortNames msg ∧ width (pieces (firstValue vars) 0 msg) < httpMaxLen :=
  page_inside_iff (firstValue vars) msg

def repeated : Text := (List.replicate 11 [dollar, 0x76]).flatten -- $v eleven times

def longValue : Variables Text := [⟨[0x76], List.replicate 1000 0x78, []⟩]

theorem values_and_names_overrun :
    (¬ ∀ w ∈ (httpdOutput (firstValue longValue) repeated).writes, w.Inside) ∧
      ¬ ∀ w ∈ (httpdOutput (firstValue []) (dollar::List.replicate 80 0x61)).writes, w.Inside := by
  constructor
  · intro h
    exact absurd ((page_inside_iff _ _).mp h).2 (by decide +kernel)
  · intro h
    have hn := ((page_inside_iff _ _).mp h).1 (List.replicate 80 0x61) (List.suffix_refl _)
    exact absurd hn (by decide)

end FasterConfig.HttpdOutput
