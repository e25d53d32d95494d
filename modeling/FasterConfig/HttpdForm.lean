import FasterConfig.HttpdRequest
import Mathlib.Data.List.GetD

/-!
# The variables of a query

A form is read by its pieces between the ampersands. The one pass over the
query keeps what earlier names have left in the array, so a piece without an
equals sign may take over the end of an older name. Its value stands behind
the last equals sign, an empty piece repeats the name before it, and a last
piece without a value is dropped.
-/

set_option autoImplicit false

namespace FasterConfig.HttpdForm
open FasterConfig.Strings FasterConfig.HttpdVariables FasterConfig.HttpdRequest

def ampersand : UInt8 := 0x26
def equals : UInt8 := 0x3d

/-! ## As it should be read -/

def formName (piece : Text) : Text := (strchr equals piece).elim piece Prod.fst

def formValue (piece : Text) : Text := httpdUnescape ((strchr equals piece).map Prod.snd)

def formField (piece : Text) : Text × Text := (formName piece, formValue piece)

def formFields (query : Text) : List (Text × Text) := (strtok ampersand query).map formField

def addAll (vars : Variables Text) (fields : List (Text × Text)) : Variables Text :=
  fields.foldl (fun vars f => httpdAddVariable vars f.1 f.2) vars

/-! ## As it is read -/

structure Reader where
  var : Text
  cp2 : ℕ
  val : Option Text

def readStep (s : Reader) (c : UInt8) : Reader :=
  if c = equals then { s with var := s.var.set s.cp2 0, val := some [] }
  else if c = ampersand then { s with cp2 := 0, val := none }
  else match s.val with
    | some val => { s with val := some (val ++ [c]) }
    | none => { s with var := s.var.set s.cp2 c, cp2 := s.cp2+1 }

def call (s : Reader) : Text × Text := (cString s.var, httpdUnescape s.val)

/-- The calls of `httpdAddVariable`. -/
def additions (s : Reader) : Text → List (Text × Text)
  | [] => if s.val.isSome then [call s] else []
  | c::rest =>
    if c = ampersand then call s::additions (readStep s c) rest else additions (readStep s c) rest

def startReader (query : Text) : Reader := ⟨List.replicate (query.length+1) 0, 0, none⟩

def reader (s : StoreState) : Reader := ⟨s.var, s.cp2, s.val⟩

theorem reader_step (s : StoreState) (c : UInt8) :
    reader (storeStep s c) = readStep (reader s) c := by
  unfold storeStep readStep reader equals ampersand
  split_ifs
  · rfl
  · rfl
  · cases s.val <;> rfl

theorem vars_step (s : StoreState) (c : UInt8) :
    (storeStep s c).vars =
      if c = ampersand then addAll s.vars [call (reader s)] else s.vars := by
  unfold storeStep ampersand
  by_cases h1 : c = 0x3d
  · rw [if_pos h1, if_neg (by rw [h1]; decide)]
  · rw [if_neg h1]
    split_ifs
    · rfl
    · cases s.val <;> rfl

theorem storeRest_additions (query : Text) (s : StoreState) :
    storeRest (query.foldl storeStep s) = addAll s.vars (additions (reader s) query) := by
  induction query generalizing s with
  | nil =>
    rw [List.foldl_nil, storeRest, additions, call, reader]
    cases s.val <;> rfl
  | cons c rest ih =>
    rw [List.foldl_cons, ih, vars_step, reader_step, additions]
    by_cases hc : c = ampersand
    · rw [if_pos hc, if_pos hc]
      rfl
    · rw [if_neg hc, if_neg hc]

theorem storeData_additions (vars : Variables Text) (query : Text) :
    httpdStoreData vars query = addAll vars (additions (startReader query) query) :=
  storeRest_additions query _

/-! ## One piece -/

def written (piece : Text) : Text :=
  formName piece ++ if equals ∈ piece then [0] else []

def laid (var piece : Text) : Text := written piece ++ var.drop (written piece).length

def lastText (piece : Text) : Option Text := (strrchr equals piece).map Prod.snd

def lastValue (piece : Text) : Text := httpdUnescape (lastText piece)

def calledName (var piece : Text) : Text := cString (laid var piece)

theorem run_name (name var : Text) (k : ℕ) (he : equals ∉ name) (ha : ampersand ∉ name)
    (hk : k+name.length ≤ var.length) :
    name.foldl readStep ⟨var, k, none⟩ =
      ⟨var.take k ++ name ++ var.drop (k+name.length), k+name.length, none⟩ := by
  induction name generalizing var k with
  | nil => simp
  | cons c name ih =>
    have hc : c ≠ equals := fun h => he (by simp [h])
    have hd : c ≠ ampersand := fun h => ha (by simp [h])
    rw [List.length_cons] at hk
    have hstep : readStep ⟨var, k, none⟩ c = ⟨var.set k c, k+1, none⟩ := by
      rw [readStep, if_neg hc, if_neg hd]
    have htake := take_set_succ var k c (by omega)
    rw [List.foldl_cons, hstep, ih _ _ (fun h => he (by simp [h])) (fun h => ha (by simp [h]))
      (by rw [List.length_set]; omega), htake, List.drop_set_of_lt (by omega), List.length_cons,
      Nat.add_right_comm, ← Nat.add_assoc, List.append_assoc (var.take k)]
    rfl

theorem run_value (w val var : Text) (k : ℕ) (ha : ampersand ∉ w) (hz : var.set k 0 = var) :
    w.foldl readStep ⟨var, k, some val⟩ =
      ⟨var, k, some ((strrchr equals w).elim (val ++ w) Prod.snd)⟩ := by
  induction w generalizing val with
  | nil => simp [strrchr]
  | cons c w ih =>
    have hd : c ≠ ampersand := fun h => ha (by simp [h])
    have hw : ampersand ∉ w := fun h => ha (by simp [h])
    rw [List.foldl_cons, strrchr]
    by_cases hc : c = equals
    · have hstep : readStep ⟨var, k, some val⟩ c = ⟨var, k, some []⟩ := by
        rw [readStep, if_pos hc, hz]
      rw [hstep, ih [] hw]
      cases strrchr equals w with
      | none => simp [hc]
      | some r => rfl
    · have hstep : readStep ⟨var, k, some val⟩ c = ⟨var, k, some (val ++ [c])⟩ := by
        rw [readStep, if_neg hc, if_neg hd]
      rw [hstep, ih _ hw]
      cases strrchr equals w with
      | none => simp [hc]
      | some r => rfl

theorem strrchr_cons_append (c : UInt8) (s w : Text) :
    (strrchr c (s ++ c::w)).map Prod.snd = some ((strrchr c w).elim w Prod.snd) := by
  induction s with
  | nil =>
    rw [List.nil_append, strrchr]
    cases strrchr c w with
    | none => simp
    | some r => rfl
  | cons x s ih =>
    rw [List.cons_append, strrchr]
    cases h : strrchr c (s ++ c::w) with
    | none => rw [h] at ih; cases ih
    | some r => rwa [h] at ih

theorem piece_cases {P : Text → Prop} (bare : ∀ name, equals ∉ name → P name)
    (valued : ∀ name w, equals ∉ name → P (name ++ equals::w)) (piece : Text) : P piece := by
  by_cases h : equals ∈ piece
  · obtain ⟨name, w, rfl, hn⟩ := List.eq_append_cons_of_mem h
    exact valued name w hn
  · exact bare piece h

section
variable {name w : Text} (hn : equals ∉ name)
include hn

theorem formName_bare : formName name = name := by rw [formName, strchr_none _ _ hn, Option.elim_none]

theorem formName_valued : formName (name ++ equals::w) = name := by
  rw [formName, strchr_append _ _ _ hn, Option.elim_some]

theorem formValue_bare : formValue name = [] := by
  rw [formValue, strchr_none _ _ hn, Option.map_none]
  rfl

theorem written_bare : written name = name := by
  rw [written, if_neg hn, formName_bare hn, List.append_nil]

theorem written_valued : written (name ++ equals::w) = name ++ [0] := by
  rw [written, if_pos (by simp), formName_valued hn]

theorem lastText_bare : lastText name = none := by rw [lastText, strrchr_none _ _ hn, Option.map_none]

theorem laid_bare (var : Text) : laid var name = name ++ var.drop name.length := by
  rw [laid, written_bare hn]

theorem laid_valued (var : Text) :
    laid var (name ++ equals::w) = name ++ 0::var.drop (name.length+1) := by
  rw [laid, written_valued hn, List.append_assoc, List.length_append, List.length_singleton]
  rfl

end

theorem length_written (piece : Text) : (written piece).length ≤ piece.length := by
  induction piece using piece_cases with
  | bare name hn => rw [written_bare hn]
  | valued name w hn =>
    rw [written_valued hn]
    simp only [List.length_append, List.length_cons, List.length_nil]
    omega

theorem length_laid (var piece : Text) (hl : piece.length ≤ var.length) :
    (laid var piece).length = var.length := by
  have h := length_written piece
  rw [laid, List.length_append, List.length_drop]
  omega

theorem run_piece (var piece : Text) (ha : ampersand ∉ piece) (hl : piece.length ≤ var.length) :
    piece.foldl readStep ⟨var, 0, none⟩ =
      ⟨laid var piece, (formName piece).length, lastText piece⟩ := by
  induction piece using piece_cases with
  | bare name hn =>
    rw [run_name name var 0 hn ha (by omega), formName_bare hn, laid_bare hn, lastText_bare hn]
    simp
  | valued name w hn =>
    have haw : ampersand ∉ w := fun h => ha (by simp [h])
    have han : ampersand ∉ name := fun h => ha (by simp [h])
    rw [List.length_append, List.length_cons] at hl
    have hname := run_name name var 0 hn han (by omega)
    rw [List.take_zero, List.nil_append, Nat.zero_add] at hname
    have hset : (name ++ var.drop name.length).set name.length 0 = name ++ 0::var.drop (name.length+1) := by
      rw [List.set_append_right _ _ (Nat.le_refl _), Nat.sub_self,
        List.drop_eq_getElem_cons (by omega : name.length < var.length), List.set_cons_zero]
    have hstep : readStep ⟨name ++ var.drop name.length, name.length, none⟩ equals =
        ⟨name ++ 0::var.drop (name.length+1), name.length, some []⟩ := by
      rw [readStep, if_pos rfl, hset]
    rw [List.foldl_append, hname, List.foldl_cons, hstep, run_value w [] _ _ haw (by simp),
      formName_valued hn, laid_valued hn, lastText, strrchr_cons_append]
    rfl

/-! ## All pieces -/

def formText (front : List Text) (last : Text) : Text :=
  front.flatMap (fun p => p ++ [ampersand]) ++ last

def fieldsOf (front : List Text) (last : Text) : List (Text × Text) :=
  ((front ++ [last]).filter (· ≠ [])).map formField

def pieceCall (var piece : Text) : Text × Text := (calledName var piece, lastValue piece)

def calls (var last : Text) : List Text → List (Text × Text)
  | [] => if equals ∈ last then [pieceCall var last] else []
  | p::front => pieceCall var p::calls (laid var p) last front

theorem additions_append (s : Reader) (piece rest : Text) (ha : ampersand ∉ piece) :
    additions s (piece ++ rest) = additions (piece.foldl readStep s) rest := by
  induction piece generalizing s with
  | nil => rfl
  | cons c piece ih =>
    have hc : c ≠ ampersand := fun h => ha (by simp [h])
    rw [List.cons_append, additions, if_neg hc, ih _ fun h => ha (by simp [h]), List.foldl_cons]

theorem lastText_isSome (piece : Text) : (lastText piece).isSome ↔ equals ∈ piece := by
  induction piece using piece_cases with
  | bare name hn => simp [lastText_bare hn, hn]
  | valued name w hn => simp [lastText, strrchr_cons_append]

theorem call_piece (var piece : Text) (k : ℕ) :
    call ⟨laid var piece, k, lastText piece⟩ = pieceCall var piece := rfl

theorem additions_pieces (var : Text) (front : List Text) (last : Text)
    (ha : ∀ p ∈ front ++ [last], ampersand ∉ p)
    (hl : ∀ p ∈ front ++ [last], p.length ≤ var.length) :
    additions ⟨var, 0, none⟩ (formText front last) = calls var last front := by
  induction front generalizing var with
  | nil =>
    have hr := additions_append ⟨var, 0, none⟩ last [] (ha last (by simp))
    rw [List.append_nil, run_piece var last (ha last (by simp)) (hl last (by simp)), additions,
      call_piece] at hr
    simp only [lastText_isSome] at hr
    exact hr
  | cons p front ih =>
    have hp := ha p (by simp)
    have hlp := hl p (by simp)
    have hnext : readStep ⟨laid var p, (formName p).length, lastText p⟩ ampersand =
        ⟨laid var p, 0, none⟩ := by
      rw [readStep, if_neg (by decide), if_pos rfl]
    have hrest := ih (laid var p) (fun q hq => ha q (List.mem_cons_of_mem p hq))
      (fun q hq => by
        rw [length_laid var p hlp]
        exact hl q (List.mem_cons_of_mem p hq))
    rw [formText, List.flatMap_cons, List.append_assoc, List.append_assoc,
      additions_append _ p _ hp, run_piece var p hp hlp, List.singleton_append, additions,
      if_pos rfl, call_piece, hnext, calls, ← hrest, formText]

theorem fieldsOf_nil (last : Text) :
    fieldsOf [] last = if last = [] then [] else [formField last] := by
  by_cases h : last = [] <;> simp [fieldsOf, h]

theorem fieldsOf_cons (p : Text) (front : List Text) (last : Text) :
    fieldsOf (p::front) last =
      if p = [] then fieldsOf front last else formField p::fieldsOf front last := by
  by_cases h : p = [] <;> simp [fieldsOf, h]

theorem length_calls (var last : Text) (front : List Text) :
    front.length ≤ (calls var last front).length := by
  induction front generalizing var with
  | nil => exact Nat.zero_le _
  | cons p front ih => exact Nat.succ_le_succ (ih _)

theorem length_fieldsOf (front : List Text) (last : Text) :
    (fieldsOf front last).length ≤ front.length+1 := by
  have h := List.length_filter_le (fun p => decide (p ≠ [])) (front ++ [last])
  rw [List.length_append, List.length_singleton] at h
  rwa [fieldsOf, List.length_map]

theorem pieces_of (query : Text) :
    ∃ front last, query.splitOn ampersand = front ++ [last] ∧ query = formText front last ∧
      ∀ p ∈ front ++ [last], ampersand ∉ p := by
  induction h : query.count ampersand generalizing query with
  | zero =>
    have hn := List.count_eq_zero.mp h
    exact ⟨[], query, List.splitOn_eq_singleton hn, rfl, by simpa using hn⟩
  | succ n ih =>
    have hm : ampersand ∈ query := List.count_pos_iff.mp (by omega)
    obtain ⟨p, rest, rfl, hp⟩ := List.eq_append_cons_of_mem hm
    rw [List.count_append, List.count_cons_self, List.count_eq_zero_of_not_mem hp] at h
    obtain ⟨front, last, hs, ht, ha⟩ := ih rest (by omega)
    refine ⟨p::front, last, ?_, ?_, ?_⟩
    · rw [List.splitOn_append_cons_self_of_not_mem hp, hs, List.cons_append]
    · rw [ht, formText, formText, List.flatMap_cons]
      simp
    · intro q hq
      rcases List.mem_cons.mp hq with rfl | hq
      · exact hp
      · exact ha q hq

/-! ## Pieces that are read as they should be -/

/-- The last name before that is at least as long is exactly as long, if there is one. -/
def Covered (before : List Text) (n : ℕ) : Prop :=
  ∀ q, (before.reverse.find? fun q => n ≤ (formName q).length) = some q → (formName q).length = n

structure Clean (before : List Text) (piece : Text) : Prop where
  nonempty : piece ≠ []
  bare : equals ∉ piece → Covered before piece.length
  value : formValue piece = lastValue piece

def AllClean (before front : List Text) : Prop :=
  ∀ pre p post, front = pre ++ p::post → Clean (before ++ pre) p

theorem allClean_nil (before : List Text) : AllClean before [] :=
  fun pre p post h => absurd h (by simp)

theorem allClean_cons (before : List Text) (p : Text) (front : List Text) :
    AllClean before (p::front) ↔ Clean before p ∧ AllClean (before ++ [p]) front := by
  constructor
  · intro h
    constructor
    · simpa using h [] p front rfl
    · intro pre q post he
      simpa using h (p::pre) q post (by rw [he, List.cons_append])
  · rintro ⟨hp, h⟩ pre q post he
    cases pre with
    | nil =>
      obtain ⟨rfl, -⟩ := List.cons.inj he
      simpa using hp
    | cons r pre =>
      obtain ⟨rfl, hf⟩ := List.cons.inj he
      simpa using h pre q post hf

def prevName (before : List Text) : Text := before.getLast?.elim [] formName

/-- What the array tells about the names before. -/
structure Keeps (before : List Text) (var : Text) : Prop where
  ended : ∀ n, var.getD n 0 = 0 ↔ Covered before n
  name : cString var = prevName before

theorem covered_concat (before : List Text) (p : Text) (n : ℕ) :
    Covered (before ++ [p]) n ↔
      if n ≤ (formName p).length then (formName p).length = n else Covered before n := by
  rw [Covered, List.reverse_append, List.reverse_singleton, List.singleton_append, List.find?_cons]
  by_cases h : n ≤ (formName p).length
  · rw [if_pos h, decide_eq_true h]
    simp
  · rw [if_neg h, decide_eq_false h]
    rfl

theorem cString_prefix (name rest : Text) (h : 0 ∉ name) :
    cString (name ++ rest) = name ++ cString rest := by
  apply List.takeWhile_append_of_pos
  intro c hc
  exact decide_eq_true fun he => h (he ▸ hc)

theorem cString_eq_nil (s : Text) : cString s = [] ↔ s.getD 0 0 = 0 := by
  cases s with
  | nil => simp [cString]
  | cons c s => simp [cString, List.takeWhile_cons]

theorem calledName_valued (var name w : Text) (hn : equals ∉ name) (hz : 0 ∉ name) :
    calledName var (name ++ equals::w) = name := by
  rw [calledName, laid_valued hn, cString_append _ _ hz]

theorem calledName_bare (var name : Text) (hn : equals ∉ name) (hz : 0 ∉ name) :
    calledName var name = name ++ cString (var.drop name.length) := by
  rw [calledName, laid_bare hn, cString_prefix _ _ hz]

theorem calledName_iff (before : List Text) (var p : Text) (hk : Keeps before var) (hz : 0 ∉ p) :
    calledName var p = formName p ↔ (equals ∉ p → Covered before p.length) := by
  induction p using piece_cases with
  | bare name hn =>
    rw [calledName_bare var name hn hz, formName_bare hn, List.append_right_eq_self, cString_eq_nil,
      ← hk.ended, imp_iff_right hn]
    simp
  | valued name w hn =>
    rw [calledName_valued var name w hn fun h => hz (by simp [h]), formName_valued hn]
    simp

theorem pieceCall_iff (before : List Text) (var p : Text) (hk : Keeps before var) (hz : 0 ∉ p)
    (hp : p ≠ []) : pieceCall var p = formField p ↔ Clean before p := by
  rw [pieceCall, formField, Prod.mk.injEq, calledName_iff before var p hk hz]
  constructor
  · rintro ⟨hb, hv⟩
    exact ⟨hp, hb, hv.symm⟩
  · exact fun h => ⟨h.bare, h.value.symm⟩

theorem getD_inside (name rest : Text) (n : ℕ) (hz : 0 ∉ name) (h : n < name.length) :
    (name ++ rest).getD n 0 ≠ 0 := by
  rw [List.getD_append _ _ _ _ h, List.getD_eq_getElem _ _ h]
  exact fun he => hz (he ▸ List.getElem_mem h)

theorem getD_behind (name var : Text) (n : ℕ) (h : name.length ≤ n) :
    (name ++ var.drop name.length).getD n 0 = var.getD n 0 := by
  rw [List.getD_append_right _ _ _ _ h, List.getD_eq_getElem?_getD, List.getElem?_drop,
    Nat.add_sub_of_le h, List.getD_eq_getElem?_getD]

theorem laid_ends (var p : Text) (n : ℕ) (hz : 0 ∉ p) (hb : equals ∉ p → var.getD p.length 0 = 0) :
    (laid var p).getD n 0 = 0 ↔
      if n ≤ (formName p).length then (formName p).length = n else var.getD n 0 = 0 := by
  induction p using piece_cases with
  | bare name hn =>
    rw [laid_bare hn, formName_bare hn]
    rcases Nat.lt_or_ge n name.length with h | h
    · rw [if_pos (by omega)]
      exact iff_of_false (getD_inside name _ n hz h) (by omega)
    · rw [getD_behind name var n h]
      by_cases he : n ≤ name.length
      · rw [if_pos he, Nat.le_antisymm he h]
        exact iff_of_true (hb hn) rfl
      · rw [if_neg he]
  | valued name w hn =>
    rw [laid_valued hn, formName_valued hn]
    rcases Nat.lt_trichotomy n name.length with h | h | h
    · rw [if_pos (by omega)]
      exact iff_of_false (getD_inside name _ n (fun hm => hz (by simp [hm])) h) (by omega)
    · rw [if_pos (by omega), h, List.getD_append_right _ _ _ _ (Nat.le_refl _), Nat.sub_self]
      exact iff_of_true rfl rfl
    · have hd := getD_behind (name ++ [0]) var n (by simp; omega)
      rw [List.length_append, List.length_singleton, List.append_assoc] at hd
      rw [if_neg (by omega), ← hd]
      rfl

theorem keeps_laid (before : List Text) (var p : Text) (hk : Keeps before var) (hz : 0 ∉ p)
    (hc : Clean before p) : Keeps (before ++ [p]) (laid var p) := by
  constructor
  · intro n
    have hb : equals ∉ p → var.getD p.length 0 = 0 := fun hn => (hk.ended _).mpr (hc.bare hn)
    rw [covered_concat, laid_ends var p n hz hb, hk.ended]
  · rw [prevName, List.getLast?_concat, Option.elim_some]
    exact (calledName_iff before var p hk hz).mpr hc.bare

/-! ## An empty piece -/

theorem calledName_same (var p : Text) (hz : 0 ∉ p) (h : formName p = cString var) :
    calledName var p = cString var := by
  induction p using piece_cases with
  | bare name hn =>
    rw [formName_bare hn] at h
    have hv : name ++ var.drop name.length = var := by
      have ht := List.takeWhile_append_dropWhile (p := fun c => decide (c ≠ 0)) (l := var)
      rw [show var.takeWhile (fun c => decide (c ≠ 0)) = name from h.symm] at ht
      rw [← ht, List.drop_left]
    rw [calledName, laid_bare hn, hv]
  | valued name w hn =>
    rw [formName_valued hn] at h
    rw [calledName_valued var name w hn (fun hm => hz (by simp [hm])), h]

/-- All pieces have the name of the last one, and the values move up by one piece. -/
def Shifted (v : Text) (front : List Text) (last : Text) : Prop :=
  last ≠ [] ∧ (∀ p ∈ front, formName p = last) ∧
    v::front.map lastValue = front.map formValue ++ [[]]

theorem shifted_nil (v last : Text) : Shifted v [] last ↔ last ≠ [] ∧ v = [] := by
  simp [Shifted]

theorem shifted_cons (v p last : Text) (front : List Text) : Shifted v (p::front) last ↔
    formName p = last ∧ v = formValue p ∧ Shifted (lastValue p) front last := by
  rw [Shifted, List.forall_mem_cons, List.map_cons, List.map_cons, List.cons_append,
    List.cons.injEq, Shifted]
  constructor
  · exact fun ⟨hn, ⟨hname, hall⟩, hv, hr⟩ => ⟨hname, hv, hn, hall, hr⟩
  · exact fun ⟨hname, hv, hn, hall, hr⟩ => ⟨hn, ⟨hname, hall⟩, hv, hr⟩

theorem shift_iff (var v last : Text) (front : List Text) (he : equals ∉ cString var)
    (hz : ∀ p ∈ front, 0 ∉ p) :
    (cString var, v)::calls var last front = fieldsOf front last ↔
      last = cString var ∧ Shifted v front last := by
  induction front generalizing var v with
  | nil =>
    rw [fieldsOf_nil, calls, shifted_nil]
    constructor
    · intro h
      by_cases hl : last = []
      · rw [if_pos hl] at h
        exact absurd h (List.cons_ne_nil _ _)
      · rw [if_neg hl] at h
        obtain ⟨hf, hr⟩ := List.cons.inj h
        have hn : equals ∉ last := fun hm => by simp [hm] at hr
        rw [formField, formName_bare hn, formValue_bare hn, Prod.mk.injEq] at hf
        exact ⟨hf.1.symm, hl, hf.2⟩
    · rintro ⟨hl, hn, hv⟩
      have hb : equals ∉ last := hl ▸ he
      rw [if_neg hb, if_neg hn, formField, formName_bare hb, formValue_bare hb, hl, hv]
  | cons p front ih =>
    rw [fieldsOf_cons, calls, shifted_cons]
    by_cases hp : p = []
    · rw [if_pos hp]
      apply iff_of_false
      · intro h
        have hlen := congrArg List.length h
        have hc := length_calls (laid var p) last front
        have hf := length_fieldsOf front last
        simp only [List.length_cons] at hlen
        omega
      · rintro ⟨-, hname, -, hs⟩
        rw [hp] at hname
        exact hs.1 hname.symm
    · rw [if_neg hp, List.cons.injEq, formField, Prod.mk.injEq, and_assoc]
      have hstep : formName p = cString var → ((pieceCall var p::calls (laid var p) last front =
          fieldsOf front last) ↔ last = cString var ∧ Shifted (lastValue p) front last) := by
        intro hname
        have hsame : cString (laid var p) = cString var := calledName_same var p (hz p (by simp)) hname
        have hi := ih (laid var p) (lastValue p) (by rwa [hsame]) fun q hq => hz q (by simp [hq])
        rw [hsame] at hi
        rw [pieceCall, calledName, hsame]
        exact hi
      constructor
      · rintro ⟨hname, hv, hr⟩
        obtain ⟨hl, hs⟩ := (hstep hname.symm).mp hr
        exact ⟨hl, hname.symm.trans hl.symm, hv, hs⟩
      · rintro ⟨hl, hname, hv, hs⟩
        have hsame := hname.trans hl
        exact ⟨hsame.symm, hv, (hstep hsame).mpr ⟨hl, hs⟩⟩

/-! ## The query -/

/-- All pieces with an ampersand behind them are read well, and so is the last one. -/
def ReadThrough (before front : List Text) (last : Text) : Prop :=
  AllClean before front ∧ (last = [] ∨ equals ∈ last ∧ formValue last = lastValue last)

/-- One piece is empty and all pieces behind it have the name of the piece before it; the
last one is that name, and the values move up by one piece. -/
def ReadAhead (before front : List Text) (last : Text) : Prop :=
  ∃ head tail, front = head ++ []::tail ∧ AllClean before head ∧
    last = prevName (before ++ head) ∧ last ≠ [] ∧ (∀ p ∈ tail, formName p = last) ∧
    []::tail.map lastValue = tail.map formValue ++ [[]]

theorem readThrough_cons (before : List Text) (p : Text) (front : List Text) (last : Text) :
    ReadThrough before (p::front) last ↔
      Clean before p ∧ ReadThrough (before ++ [p]) front last := by
  rw [ReadThrough, allClean_cons, and_assoc, ReadThrough]

theorem readAhead_cons (before : List Text) (p : Text) (front : List Text) (last : Text)
    (hp : p ≠ []) : ReadAhead before (p::front) last ↔
      Clean before p ∧ ReadAhead (before ++ [p]) front last := by
  constructor
  · rintro ⟨head, tail, hf, hc, hl, hr⟩
    cases head with
    | nil => exact absurd (List.cons.inj hf).1 hp
    | cons q head =>
      obtain ⟨rfl, hfront⟩ := List.cons.inj hf
      rw [allClean_cons] at hc
      rw [List.append_cons] at hl
      exact ⟨hc.1, head, tail, hfront, hc.2, hl, hr⟩
  · rintro ⟨hc, head, tail, rfl, hh, hl, hr⟩
    rw [List.append_assoc] at hl
    exact ⟨p::head, tail, rfl, (allClean_cons _ _ _).mpr ⟨hc, hh⟩, hl, hr⟩

theorem readAhead_empty (before front : List Text) (last : Text) :
    ReadAhead before ([]::front) last ↔
      last = prevName before ∧ Shifted [] front last := by
  constructor
  · rintro ⟨head, tail, hf, hc, hl, hr⟩
    cases head with
    | nil =>
      obtain ⟨-, rfl⟩ := List.cons.inj hf
      rw [List.append_nil] at hl
      exact ⟨hl, hr⟩
    | cons q head =>
      obtain ⟨rfl, -⟩ := List.cons.inj hf
      exact absurd rfl ((allClean_cons _ _ _).mp hc).1.nonempty
  · rintro ⟨hl, hr⟩
    exact ⟨[], front, rfl, allClean_nil before, by rwa [List.append_nil], hr⟩

theorem equals_not_mem_prevName (before : List Text) : equals ∉ prevName before := by
  rw [prevName]
  cases before.getLast? with
  | none => exact List.not_mem_nil
  | some q =>
    rw [Option.elim_some]
    induction q using piece_cases with
    | bare name hn => rwa [formName_bare hn]
    | valued name w hn => rwa [formName_valued hn]

theorem calls_last (before : List Text) (var last : Text) (hk : Keeps before var) (hz : 0 ∉ last) :
    calls var last [] = fieldsOf [] last ↔
      last = [] ∨ equals ∈ last ∧ formValue last = lastValue last := by
  rw [calls, fieldsOf_nil]
  by_cases he : equals ∈ last
  · have hl : last ≠ [] := List.ne_nil_of_mem he
    have hname := (calledName_iff before var last hk hz).mpr fun hn => absurd he hn
    rw [if_pos he, if_neg hl, pieceCall, formField, hname]
    simp [he, hl, eq_comm]
  · by_cases hl : last = [] <;> simp [he, hl]

theorem calls_iff (before : List Text) (var last : Text) (front : List Text)
    (hk : Keeps before var) (hz : ∀ p ∈ front ++ [last], 0 ∉ p) :
    calls var last front = fieldsOf front last ↔
      ReadThrough before front last ∨ ReadAhead before front last := by
  induction front generalizing before var with
  | nil =>
    have hn : ¬ ReadAhead before [] last := by
      rintro ⟨head, tail, hf, -⟩
      exact absurd hf (by simp)
    rw [calls_last before var last hk (hz last (by simp)), or_iff_left hn, ReadThrough,
      and_iff_right (allClean_nil before)]
  | cons p front ih =>
    rw [readThrough_cons]
    by_cases hp : p = []
    · have hn : ¬ (Clean before p ∧ ReadThrough (before ++ [p]) front last) :=
        fun h => h.1.nonempty hp
      have he : equals ∉ cString var := hk.name ▸ equals_not_mem_prevName before
      have hs := shift_iff var [] last front he fun q hq => hz q (by simp [hq])
      have hcall : pieceCall var [] = (cString var, []) := rfl
      rw [or_iff_right hn, hp, readAhead_empty, ← hk.name, ← hs, calls, fieldsOf_cons, if_pos rfl,
        hcall]
      rfl
    · rw [readAhead_cons before p front last hp, ← and_or_left, calls, fieldsOf_cons, if_neg hp,
        List.cons.injEq, pieceCall_iff before var p hk (hz p (by simp)) hp]
      apply and_congr_right
      intro hc
      exact ih (before ++ [p]) (laid var p) (keeps_laid before var p hk (hz p (by simp)) hc)
        fun q hq => hz q (List.mem_cons_of_mem p hq)

/-- With `front` the pieces that have an ampersand behind them. -/
def Readable (query : Text) : Prop :=
  ∃ front last, query.splitOn ampersand = front ++ [last] ∧
    (ReadThrough [] front last ∨ ReadAhead [] front last)

theorem keeps_start (query : Text) : Keeps [] (startReader query).var := by
  constructor
  · intro n
    have hc : Covered [] n := fun q hq => by simp at hq
    apply iff_of_true _ hc
    rw [startReader, List.getD_eq_getElem?_getD, List.getElem?_replicate]
    split <;> rfl
  · rw [startReader, List.replicate_succ]
    rfl

theorem formFields_pieces (query : Text) (front : List Text) (last : Text)
    (h : query.splitOn ampersand = front ++ [last]) : formFields query = fieldsOf front last := by
  rw [formFields, strtok, h, fieldsOf]

theorem length_le_formText (front : List Text) (last p : Text) (h : p ∈ front ++ [last]) :
    p.length ≤ (formText front last).length := by
  rw [formText, List.length_append]
  rcases List.mem_append.mp h with h | h
  · obtain ⟨xs, ys, rfl⟩ := List.append_of_mem h
    simp only [List.flatMap_append, List.flatMap_cons, List.length_append]
    omega
  · rw [List.mem_singleton.mp h]
    omega

/-- The calls made for a query are those for its fields exactly when it is readable. -/
theorem storeData_reads_iff (query : Text) (hz : 0 ∉ query) :
    (∀ vars, httpdStoreData vars query = addAll vars (additions (startReader query) query)) ∧
      (additions (startReader query) query = formFields query ↔ Readable query) := by
  refine ⟨fun vars => storeData_additions vars query, ?_⟩
  obtain ⟨front, last, hs, ht, ha⟩ := pieces_of query
  have hlen : ∀ p ∈ front ++ [last], p.length ≤ (startReader query).var.length := by
    intro p hp
    have hp := length_le_formText front last p hp
    rw [← ht] at hp
    rw [startReader, List.length_replicate]
    omega
  have hzero : ∀ p ∈ front ++ [last], 0 ∉ p := by
    intro p hp hm
    rw [← hs] at hp
    exact hz (Separators.mem_splitOn ampersand query p hp 0 hm)
  have hcalls : additions (startReader query) query = calls (startReader query).var last front := by
    have h := additions_pieces (startReader query).var front last ha hlen
    rwa [← ht] at h
  rw [hcalls, formFields_pieces query front last hs,
    calls_iff [] _ last front (keeps_start query) hzero]
  constructor
  · exact fun h => ⟨front, last, hs, h⟩
  · rintro ⟨front', last', hs', h⟩
    rw [hs] at hs'
    obtain ⟨rfl, hl⟩ := List.append_inj' hs' rfl
    rwa [(List.cons.inj hl).1]

theorem storeData_reads_two :
    additions (startReader [0x61, 0x3d, 0x31, 0x26, 0x62, 0x3d, 0x32])
        [0x61, 0x3d, 0x31, 0x26, 0x62, 0x3d, 0x32] =
      formFields [0x61, 0x3d, 0x31, 0x26, 0x62, 0x3d, 0x32] := by
  apply (storeData_reads_iff [0x61, 0x3d, 0x31, 0x26, 0x62, 0x3d, 0x32] (by decide)).2.mpr
  have hclean : Clean [] [0x61, 0x3d, 0x31] :=
    ⟨by decide, fun h => absurd (by decide) h, by decide⟩
  exact ⟨[[0x61, 0x3d, 0x31]], [0x62, 0x3d, 0x32], by decide,
    .inl ⟨(allClean_cons _ _ _).mpr ⟨hclean, allClean_nil _⟩, .inr ⟨by decide, by decide⟩⟩⟩

theorem storeData_two_equals :
    ¬ ∀ (query : Text) (vars : Variables Text), 0 ∉ query →
      httpdStoreData vars query = addAll vars (formFields query) := by
  intro h
  exact absurd (h [0x75, 0x3d, 0x61, 0x3d, 0x62] [] (by decide)) (by decide)

end FasterConfig.HttpdForm
