import FasterConfig.ConfigFields
import FasterConfig.DottedQuad

/-!
# Files as they are written

The file that is shipped has remarks and, for each field, a line with its key,
blanks and its value. Any file of this form is read as it was written: a key is
found nowhere but in its own lines, and each field gets the value of the last.
-/

set_option autoImplicit false

namespace FasterConfig.ConfigText
open FasterConfig.Octets FasterConfig.Strings FasterConfig.Separators FasterConfig.ConfigFile
open FasterConfig.ConfigLines FasterConfig.ConfigFields
open FasterConfig.Cidr (isSpace isDigit value)
open FasterConfig.HttpdResponse (decimal digits)

structure IsWord (w : Text) : Prop where
  nonempty : w ≠ []
  unbroken : ∀ c ∈ w, isSpace c = false
  nulless : 0 ∉ w

instance (w : Text) : Decidable (IsWord w) :=
  decidable_of_iff (w ≠ [] ∧ w.all (fun c => !isSpace c) = true ∧ 0 ∉ w)
    ⟨fun h => ⟨h.1, by simpa using h.2.1, h.2.2⟩, fun h => ⟨h.nonempty, by simpa using h.unbroken, h.nulless⟩⟩

/-- A comment, or too short to be looked at. -/
structure IsRemark (t : Text) : Prop where
  unbroken : newline ∉ t
  nulless : 0 ∉ t
  skipped : t.head? = some 0x23 ∨ t.length < 3
  short : t.length < 63

instance (t : Text) : Decidable (IsRemark t) :=
  decidable_of_iff (newline ∉ t ∧ 0 ∉ t ∧ (t.head? = some 0x23 ∨ t.length < 3) ∧ t.length < 63)
    ⟨fun h => ⟨h.1, h.2.1, h.2.2.1, h.2.2.2⟩, fun h => ⟨h.unbroken, h.nulless, h.skipped, h.short⟩⟩

def entryLine (key : Text) (gap : ℕ) (w : Text) : Text :=
  key ++ blank::(List.replicate gap blank ++ (w ++ [newline]))

inductive Item where
  | remark (t : Text) (h : IsRemark t)
  | int (f : IntField) (gap : ℕ) (v : Int32) (hl : (entryLine f.key gap (decimal v.toInt)).length < 64)
  | str (f : StrField) (gap : ℕ) (w : Text) (hw : IsWord w) (hl : (entryLine f.key gap w).length < 64)

def Item.text : Item → Text
  | .remark t _ => t ++ [newline]
  | .int f gap v _ => entryLine f.key gap (decimal v.toInt)
  | .str f gap w _ _ => entryLine f.key gap w

def fileText (items : List Item) : Text := items.flatMap Item.text

def Item.int? (f : IntField) : Item → Option Int32
  | .int g _ v _ => if g = f then some v else none
  | _ => none

def Item.str? (f : StrField) : Item → Option Text
  | .str g _ w _ _ => if g = f then some w else none
  | _ => none

def meant (items : List Item) (s : Fields) : Fields where
  ints f := ((items.filterMap (Item.int? f)).getLast?).getD (s.ints f)
  strs f := ((items.filterMap (Item.str? f)).getLast?).getD (s.strs f)

/-! ## Words -/

theorem isSpace_blank : isSpace blank = true := by decide

theorem isSpace_newline : isSpace newline = true := by decide

theorem words_gap (gap : ℕ) (s : Text) : words isSpace (List.replicate gap blank ++ s) = words isSpace s := by
  induction gap with
  | zero => rfl
  | succ gap ih => rw [List.replicate_succ, List.cons_append, words_space _ _ _ isSpace_blank, ih]

theorem words_entry {key w : Text} (hk : IsWord key) (hw : IsWord w) (gap : ℕ) :
    words isSpace (entryLine key gap w) = [key, w] := by
  rw [entryLine, words_append _ key hk.nonempty hk.unbroken blank _ isSpace_blank, words_gap,
    words_append _ w hw.nonempty hw.unbroken newline [] isSpace_newline]
  rfl

theorem digits_all (n : ℕ) : ∀ c ∈ digits n, isDigit c = true := HttpdHead.digits_digit n

theorem decimal_octet (n : ℤ) (c : UInt8) (hc : c ∈ decimal n) : c = 0x2d ∨ isDigit c = true := by
  cases n with
  | ofNat n => exact .inr (digits_all n c hc)
  | negSucc n =>
    rcases List.mem_cons.mp hc with rfl | hc
    · exact .inl rfl
    · exact .inr (digits_all (n+1) c hc)

theorem digits_ne_nil (n : ℕ) : digits n ≠ [] := fun h =>
  absurd (List.map_eq_nil_iff.mp h) Nat.toDigits_ne_nil

theorem digits_unsigned (n : ℕ) : ¬ ((digits n).head? = some 0x2d ∨ (digits n).head? = some 0x2b) := by
  intro h
  rcases h with h | h
  · exact absurd (digits_all n _ (List.mem_of_mem_head? h)) (by decide)
  · exact absurd (digits_all n _ (List.mem_of_mem_head? h)) (by decide)

theorem isDigit_nonspace {c : UInt8} (h : isDigit c = true) : isSpace c = false := by
  have hall : ∀ c, isDigit c = true → isSpace c = false := octet_induction (by decide +kernel)
  exact hall c h

theorem decimal_word (n : ℤ) : IsWord (decimal n) where
  nonempty := by
    cases n with
    | ofNat n => exact digits_ne_nil n
    | negSucc n => exact List.cons_ne_nil _ _
  unbroken c hc := by
    rcases decimal_octet n c hc with rfl | hd
    · decide
    · exact isDigit_nonspace hd
  nulless hm := by
    rcases decimal_octet n 0 hm with h | h
    · exact absurd h (by decide)
    · exact absurd h (by decide)

/-! ## Numbers -/

theorem numeral_decimal (n : ℤ) : numeral (decimal n) = some n := by
  cases n with
  | ofNat n =>
    have hfirst := digits_unsigned n
    have hall : (digits n).all isDigit = true := List.all_eq_true.mpr (digits_all n)
    rw [decimal, numeral]
    simp only [if_neg hfirst, if_neg fun h => hfirst (.inl h), digits_ne_nil n, hall, false_or,
      Bool.true_eq_false, if_false, DottedQuad.value_digits]
    rfl
  | negSucc n =>
    have hall : (digits (n+1)).all isDigit = true := List.all_eq_true.mpr (digits_all (n+1))
    rw [decimal, numeral]
    simp only [List.head?_cons, true_or, if_true, List.tail_cons, digits_ne_nil (n+1), hall, false_or,
      Bool.true_eq_false, if_false, DottedQuad.value_digits]
    rfl

theorem dropWhile_gap (gap : ℕ) (s : Text) :
    (List.replicate gap blank ++ s).dropWhile isSpace = s.dropWhile isSpace := by
  induction gap with
  | zero => rfl
  | succ gap ih =>
    rw [List.replicate_succ, List.cons_append, List.dropWhile_cons_of_pos isSpace_blank, ih]

theorem takeWhile_digits (n : ℕ) (c : UInt8) (s : Text) (hc : isDigit c = false) :
    (digits n ++ c::s).takeWhile isDigit = digits n := by
  rw [List.takeWhile_append_of_pos (digits_all n), List.takeWhile_cons_of_neg (by simp [hc]),
    List.append_nil]

theorem scanInt_decimal (v : Int32) : scanInt (decimal v.toInt ++ [newline]) = some v := by
  have hlo := v.le_toInt
  have hhi := v.toInt_lt
  have hstay : (decimal v.toInt ++ [newline]).dropWhile isSpace = decimal v.toInt ++ [newline] := by
    obtain ⟨c, w, hw⟩ := List.exists_cons_of_ne_nil (decimal_word v.toInt).nonempty
    have hc := (decimal_word v.toInt).unbroken c (by rw [hw]; exact List.mem_cons_self)
    rw [hw, List.cons_append, List.dropWhile_cons_of_neg (by simp [hc])]
  have hv : Int32.ofInt v.toInt = v := Int32.ofInt_toInt v
  rw [scanInt, hstay]
  generalize v.toInt = n at *
  cases n with
  | ofNat n =>
    rw [Int.ofNat_eq_natCast] at hlo hhi
    have hhead : (digits n ++ [newline]).head? = (digits n).head? := by
      obtain ⟨c, w, hw⟩ := List.exists_cons_of_ne_nil (digits_ne_nil n)
      rw [hw]
      rfl
    have hfirst := digits_unsigned n
    rw [decimal]
    simp only [hhead, if_neg hfirst, if_neg fun h => hfirst (.inl h),
      takeWhile_digits n newline [] (by decide), digits_ne_nil n, DottedQuad.value_digits, false_or]
    rw [if_neg (by omega)]
    exact congrArg some hv
  | negSucc n =>
    rw [decimal]
    simp only [List.cons_append, List.head?_cons, true_or, if_true, List.tail_cons,
      takeWhile_digits (n+1) newline [] (by decide), digits_ne_nil (n+1), DottedQuad.value_digits, false_or]
    rw [if_neg (by omega)]
    exact congrArg some hv

theorem scanSecond_entry {key : Text} (hk : IsWord key) (gap : ℕ) (v : Int32) :
    scanSecond (entryLine key gap (decimal v.toInt)) = some v := by
  obtain ⟨c, k, hkey⟩ := List.exists_cons_of_ne_nil hk.nonempty
  have hc := hk.unbroken c (by rw [hkey]; exact List.mem_cons_self)
  have hstay : (entryLine key gap (decimal v.toInt)).dropWhile isSpace =
      entryLine key gap (decimal v.toInt) := by
    rw [entryLine, hkey, List.cons_append, List.dropWhile_cons_of_neg (by simp [hc])]
  have hword : ∀ c ∈ key, (!isSpace c) = true := fun c hc => by rw [hk.unbroken c hc]; rfl
  have hrest : (entryLine key gap (decimal v.toInt)).dropWhile (fun c => !isSpace c) =
      blank::(List.replicate gap blank ++ (decimal v.toInt ++ [newline])) := by
    rw [entryLine, List.dropWhile_append_of_pos hword, List.dropWhile_cons_of_neg (by decide)]
  have hne : entryLine key gap (decimal v.toInt) ≠ [] := by
    rw [entryLine, hkey]
    exact List.cons_ne_nil _ _
  have hscan : scanInt (blank::(List.replicate gap blank ++ (decimal v.toInt ++ [newline]))) =
      scanInt (decimal v.toInt ++ [newline]) := by
    rw [scanInt, scanInt, List.dropWhile_cons_of_pos isSpace_blank, dropWhile_gap]
  rw [scanSecond, scanWord, hstay, if_neg hne, Option.bind_some, hrest, hscan, scanInt_decimal]

/-! ## Keys -/

theorem eq_of_start {k s t : Text} (hk : blank ∉ k) (hs : blank ∉ s)
    (h : k ++ [blank] <+: s ++ blank::t) : k = s := by
  obtain ⟨u, hu⟩ := h
  have hcut (a b : Text) (ha : blank ∉ a) : (a ++ blank::b).takeWhile (· ≠ blank) = a := by
    have hall : ∀ c ∈ a, decide (c ≠ blank) = true := fun c hc => decide_eq_true fun he => ha (he ▸ hc)
    rw [List.takeWhile_append_of_pos hall, List.takeWhile_cons_of_neg (by simp), List.append_nil]
  have hleft := hcut k u hk
  rw [← hcut s t hs, ← hu, List.append_assoc]
  exact hleft.symm

theorem not_matches_nil {k : Text} (hn : k ≠ []) (hb : blank ∉ k) (w : Text) (hw : blank ∉ w) (gap : ℕ) :
    ¬ Matches k (List.replicate gap blank ++ (w ++ [newline])) := by
  induction gap with
  | zero =>
    intro h
    have hm : blank ∈ w ++ [newline] := h.subset (List.mem_append_right _ (List.mem_singleton_self blank))
    rcases List.mem_append.mp hm with hm | hm
    · exact hw hm
    · exact absurd (List.mem_singleton.mp hm) (by decide)
  | succ gap ih =>
    intro h
    rw [Matches, List.replicate_succ, List.cons_append, List.infix_cons_iff] at h
    rcases h with hp | hi
    · exact hn (eq_of_start hb List.not_mem_nil hp)
    · exact ih hi

theorem suffix_of_matches {k : Text} (hn : k ≠ []) (hb : blank ∉ k) (key w : Text) (hk : blank ∉ key)
    (hw : blank ∉ w) (gap : ℕ) (h : Matches k (entryLine key gap w)) : k <:+ key := by
  induction key with
  | nil =>
    rw [Matches, entryLine, List.nil_append, List.infix_cons_iff] at h
    rcases h with hp | hi
    · exact absurd (eq_of_start hb List.not_mem_nil hp) hn
    · exact absurd hi (not_matches_nil hn hb w hw gap)
  | cons c key ih =>
    rw [Matches, entryLine, List.cons_append, List.infix_cons_iff, ← List.cons_append] at h
    rcases h with hp | hi
    · rw [eq_of_start hb hk hp]
    · exact (ih (fun hm => hk (List.mem_cons_of_mem c hm)) hi).trans (List.suffix_cons c key)

theorem matches_entry (key w : Text) (gap : ℕ) : Matches key (entryLine key gap w) :=
  ⟨[], List.replicate gap blank ++ (w ++ [newline]), by simp [entryLine]⟩

def keyOf : IntField ⊕ StrField → Text := Sum.elim IntField.key StrField.key

theorem keyOf_word (f : IntField ⊕ StrField) : IsWord (keyOf f) := by
  have hall : (keyOf f).all (fun c => !isSpace c && c != 0) = true := by
    rcases f with f | f <;> cases f <;> decide
  have hmem (c : UInt8) (hc : c ∈ keyOf f) : isSpace c = false ∧ c ≠ 0 := by
    simpa using List.all_eq_true.mp hall c hc
  refine ⟨?_, fun c hc => (hmem c hc).1, fun hm => (hmem 0 hm).2 rfl⟩
  rcases f with f | f <;> cases f <;> exact List.cons_ne_nil _ _

theorem keyOf_suffix (f g : IntField ⊕ StrField) (h : keyOf f <:+ keyOf g) : f = g := by
  revert h
  rcases f with f | f <;> rcases g with g | g <;> cases f <;> cases g <;> decide

theorem IsWord.blankless {w : Text} (h : IsWord w) : blank ∉ w := fun hm =>
  absurd (h.unbroken blank hm) (by decide)

theorem matches_keyOf (f g : IntField ⊕ StrField) (gap : ℕ) (w : Text) (hw : IsWord w) :
    Matches (keyOf g) (entryLine (keyOf f) gap w) ↔ g = f := by
  constructor
  · intro h
    have hsuffix := suffix_of_matches (keyOf_word g).nonempty (keyOf_word g).blankless (keyOf f) w
      (keyOf_word f).blankless hw.blankless gap h
    exact keyOf_suffix g f hsuffix
  · rintro rfl
    exact matches_entry (keyOf g) w gap

/-! ## Lines -/

theorem fileLines_append (l file : Text) (h : newline ∉ l) :
    fileLines (l ++ newline::file) = (l ++ [newline])::fileLines file := by
  induction l with
  | nil => rw [List.nil_append, fileLines, if_pos rfl, List.nil_append]
  | cons c l ih =>
    obtain ⟨hc, hl⟩ := not_or.mp fun hm => h (List.mem_cons.mpr hm)
    rw [List.cons_append, fileLines, if_neg (Ne.symm hc), ih hl]
    rfl

theorem not_mem_entry {key w : Text} (c : UInt8) (hk : c ∉ key) (hw : c ∉ w) (hb : c ≠ blank) (gap : ℕ) :
    c ∉ key ++ blank::(List.replicate gap blank ++ w) := by
  simp [hk, hw, hb]

theorem IsWord.newlineless {w : Text} (h : IsWord w) : newline ∉ w := fun hm =>
  absurd (h.unbroken newline hm) (by decide)

def Item.body : Item → Text
  | .remark t _ => t
  | .int f gap v _ => f.key ++ blank::(List.replicate gap blank ++ decimal v.toInt)
  | .str f gap w _ _ => f.key ++ blank::(List.replicate gap blank ++ w)

theorem Item.text_body (i : Item) : i.text = i.body ++ [newline] := by
  cases i <;> simp [Item.text, Item.body, entryLine]

theorem Item.body_octets (i : Item) : newline ∉ i.body ∧ 0 ∉ i.body := by
  cases i with
  | remark t h => exact ⟨h.unbroken, h.nulless⟩
  | int f gap v hl =>
    have hk := keyOf_word (.inl f)
    have hw := decimal_word v.toInt
    exact ⟨not_mem_entry newline hk.newlineless hw.newlineless (by decide) gap,
      not_mem_entry 0 hk.nulless hw.nulless (by decide) gap⟩
  | str f gap w hw hl =>
    have hk := keyOf_word (.inr f)
    exact ⟨not_mem_entry newline hk.newlineless hw.newlineless (by decide) gap,
      not_mem_entry 0 hk.nulless hw.nulless (by decide) gap⟩

theorem Item.short (i : Item) : i.text.length < 64 := by
  cases i with
  | remark t h =>
    have hs := h.short
    rw [Item.text, List.length_append, List.length_singleton]
    omega
  | int f gap v hl => exact hl
  | str f gap w hw hl => exact hl

theorem lines_text (items : List Item) : fileLines (fileText items) = items.map Item.text := by
  induction items with
  | nil => rfl
  | cons i items ih =>
    rw [fileText, List.flatMap_cons, Item.text_body, List.append_assoc, List.singleton_append,
      fileLines_append _ _ i.body_octets.1, List.map_cons, Item.text_body, ← ih]
    rfl

theorem fileText_nulless (items : List Item) : 0 ∉ fileText items := by
  intro hm
  obtain ⟨i, -, hi⟩ := List.mem_flatMap.mp hm
  rw [i.text_body] at hi
  rcases List.mem_append.mp hi with hi | hi
  · exact i.body_octets.2 hi
  · exact absurd (List.mem_singleton.mp hi) (by decide)

/-! ## What the lines do -/

def Item.set : Item → Fields → Fields
  | .remark _ _, s => s
  | .int f _ v _, s => { s with ints := Function.update s.ints f v }
  | .str f _ w _ _, s => { s with strs := Function.update s.strs f w }

theorem skipped_remark (t : Text) (h : IsRemark t) : Skipped (t ++ [newline]) := by
  rcases h.skipped with hs | hs
  · left
    cases t with
    | nil => cases hs
    | cons c t => exact hs
  · right
    rw [List.length_append, List.length_singleton]
    omega

theorem not_skipped_entry (f : IntField ⊕ StrField) (gap : ℕ) (w : Text) :
    ¬ Skipped (entryLine (keyOf f) gap w) := by
  rintro (h | h)
  · rcases f with f | f <;> cases f <;> cases h
  · have hlen : 4 ≤ (keyOf f).length := by rcases f with f | f <;> cases f <;> decide
    rw [entryLine, List.length_append] at h
    omega

theorem seen_entry (f g : IntField ⊕ StrField) (gap : ℕ) (w : Text) (hw : IsWord w) :
    Seen (keyOf g) (entryLine (keyOf f) gap w) ↔ g = f := by
  rw [Seen, matches_keyOf f g gap w hw, and_iff_right (not_skipped_entry f gap w)]

theorem secondWord_entry (f : IntField ⊕ StrField) (gap : ℕ) (w : Text) (hw : IsWord w) :
    secondWord (entryLine (keyOf f) gap w) = some w := by
  rw [secondWord, words_entry (keyOf_word f) hw gap]
  rfl

theorem written_entry (f g : IntField ⊕ StrField) (gap : ℕ) (w : Text) (hw : IsWord w) :
    Written (keyOf g) (entryLine (keyOf f) gap w) ↔ g = f := by
  rw [Written, seen_entry f g gap w hw, secondWord_entry f gap w hw]
  exact and_iff_left rfl

theorem effect_int (l : Text) (f : IntField) (hseen : ∀ g : IntField, Seen g.key l ↔ g = f)
    (hwritten : ∀ g : StrField, ¬ Written g.key l) (v : Int32) (hscan : scanSecond l = some v)
    (val : IntField → Int32) (s : Fields) :
    effect l val s = { s with ints := Function.update s.ints f v } := by
  simp only [effect, Fields.mk.injEq]
  refine ⟨funext fun g => ?_, funext fun g => if_neg (hwritten g)⟩
  by_cases hg : g = f
  · rw [if_pos ((hseen g).mpr hg), hg, Function.update_self, readIntFromConfigLine, hscan,
      Option.getD_some]
  · rw [if_neg fun h => hg ((hseen g).mp h), Function.update_of_ne hg]

theorem effect_str (l : Text) (f : StrField) (hseen : ∀ g : IntField, ¬ Seen g.key l)
    (hwritten : ∀ g : StrField, Written g.key l ↔ g = f) (w : Text) (hw : secondWord l = some w)
    (val : IntField → Int32) (s : Fields) :
    effect l val s = { s with strs := Function.update s.strs f w } := by
  simp only [effect, Fields.mk.injEq]
  refine ⟨funext fun g => if_neg (hseen g), funext fun g => ?_⟩
  by_cases hg : g = f
  · rw [if_pos ((hwritten g).mpr hg), hg, Function.update_self, hw, Option.getD_some]
  · rw [if_neg fun h => hg ((hwritten g).mp h), Function.update_of_ne hg]

theorem effect_text (i : Item) (val : IntField → Int32) (s : Fields) : effect i.text val s = i.set s := by
  cases i with
  | remark t h =>
    simp only [Item.text, Item.set, effect, Seen, Written, skipped_remark t h, not_true_eq_false,
      false_and, if_false]
  | int f gap v hl =>
    have hw := decimal_word v.toInt
    refine effect_int _ f (fun g => ?_) (fun g h => ?_) v (scanSecond_entry (keyOf_word (.inl f)) gap v)
      val s
    · rw [← Sum.inl.injEq (β := StrField)]
      exact seen_entry (.inl f) (.inl g) gap _ hw
    · exact Sum.inr_ne_inl ((written_entry (.inl f) (.inr g) gap _ hw).mp h)
  | str f gap w hw hl =>
    refine effect_str _ f (fun g h => ?_) (fun g => ?_) w (secondWord_entry (.inr f) gap w hw) val s
    · exact Sum.inl_ne_inr ((seen_entry (.inr f) (.inl g) gap w hw).mp h)
    · rw [← Sum.inr.injEq (α := IntField)]
      exact written_entry (.inr f) (.inr g) gap w hw

/-! ## What the file does -/

theorem set_set (i : Item) (s : Fields) : i.set (i.set s) = i.set s := by
  cases i <;> simp [Item.set]

theorem run_items (items : List Item) (val : ℕ → IntField → Int32) (s : Fields) :
    run (passes (items.map Item.text)) val s = items.foldl (fun s i => i.set s) s := by
  induction items generalizing val s with
  | nil => rfl
  | cons i items ih =>
    cases items with
    | nil =>
      -- the last line is in the array once more at the end of the file
      have hlast : i.text.getLast? = some newline := by rw [i.text_body, List.getLast?_concat]
      rw [List.map_singleton, passes, if_pos hlast, run, run, run, effect_text, effect_text, set_set]
      rfl
    | cons j items =>
      rw [List.map_cons, List.map_cons, passes_cons, run, effect_text, ← List.map_cons, ih]
      rfl

theorem last_cons {α β : Type*} (p : α → Option β) (a : α) (l : List α) (d : β) :
    ((a::l).filterMap p).getLast?.getD d = (l.filterMap p).getLast?.getD ((p a).getD d) := by
  cases h : p a with
  | none => rw [List.filterMap_cons_none h, Option.getD_none]
  | some b => rw [List.filterMap_cons_some h, List.getLast?_cons, Option.getD_some, Option.getD_some]

theorem set_ints (i : Item) (s : Fields) (f : IntField) :
    (i.set s).ints f = (i.int? f).getD (s.ints f) := by
  cases i with
  | int g gap v hl =>
    by_cases h : g = f
    · simp [Item.set, Item.int?, h]
    · simp [Item.set, Item.int?, h, Function.update_of_ne (Ne.symm h)]
  | _ => rfl

theorem set_strs (i : Item) (s : Fields) (f : StrField) :
    (i.set s).strs f = (i.str? f).getD (s.strs f) := by
  cases i with
  | str g gap w hw hl =>
    by_cases h : g = f
    · simp [Item.set, Item.str?, h]
    · simp [Item.set, Item.str?, h, Function.update_of_ne (Ne.symm h)]
  | _ => rfl

theorem foldl_set (items : List Item) (s : Fields) :
    items.foldl (fun s i => i.set s) s = meant items s := by
  induction items generalizing s with
  | nil => rfl
  | cons i items ih =>
    rw [List.foldl_cons, ih]
    simp only [meant, set_ints, set_strs, last_cons]

theorem fileText_ne_nil (items : List Item) (h : items ≠ []) : fileText items ≠ [] := by
  obtain ⟨i, rest, rfl⟩ := List.exists_cons_of_ne_nil h
  rw [fileText, List.flatMap_cons, i.text_body]
  simp

theorem mem_lines (items : List Item) (l : Text) (h : l ∈ fileLines (fileText items)) :
    ∃ i ∈ items, i.text = l := by
  rw [lines_text] at h
  exact List.mem_map.mp h

theorem short_lines (items : List Item) (l : Text) (h : l ∈ fileLines (fileText items)) : l.length < 64 := by
  obtain ⟨i, -, rfl⟩ := mem_lines items l h
  exact i.short

theorem run_written (items : List Item) (val : ℕ → IntField → Int32) (s : Fields) :
    run (passes (fileLines (fileText items))) val s = meant items s := by
  rw [lines_text, run_items, foldl_set]

theorem written_read (items : List Item) (hne : items ≠ []) (val : ℕ → IntField → Int32)
    (buf : CArray bufSize) (s : Fields) :
    readConfigFile val (fileText items) buf s = some (meant items s) := by
  rw [read_run (fileText items) (fileText_nulless items) (fileText_ne_nil items hne) (short_lines items),
    run_written]

def emptyLine : Item := .remark [] (by decide)

def dnsPortItem : Item := .int .dnsPort 0 2048 (by decide)

def HttpPortItem : Item := .int .HttpPort 0 2049 (by decide)

def apInterfaceItem : Item := .str .apInterface 0 (ascii "tether") (by decide) (by decide)

theorem blocked_word : IsWord (ascii "172.31.1.2") := by decide

/-- The file that is shipped. -/
def shippedItems : List Item :=
  [.remark (ascii "#local dns server port, except 53") (by decide),
    dnsPortItem, emptyLine,
    .remark (ascii "#block dns ip") (by decide),
    .str .dnsIP 1 (ascii "172.31.1.2") blocked_word (by decide), emptyLine,
    .remark (ascii "#local http server port") (by decide),
    HttpPortItem, emptyLine,
    .remark (ascii "#redirect url") (by decide),
    .str .ReUrl 0 (ascii "http://192.168.100.1/fasterconfig") (by decide) (by decide), emptyLine,
    .remark (ascii "#gateway ip") (by decide),
    .str .gatewayIP 0 (ascii "192.168.100.1") (by decide) (by decide), emptyLine,
    .remark (ascii "#sta interface") (by decide),
    .str .staInterface 0 (ascii "wlan0") (by decide) (by decide), emptyLine,
    .remark (ascii "#ap interface") (by decide),
    apInterfaceItem, emptyLine,
    .remark (ascii "#fasterconfig error html") (by decide),
    .str .ErrorHtml 0 (ascii "/etc/fasterconfig/fasterconfig-msg.html") (by decide) (by decide),
    emptyLine,
    .remark (ascii "#fasterconfig lock file") (by decide),
    .str .lockfile 0 (ascii "/etc/fasterconfig/fasterconfig.lock") (by decide) (by decide)]

theorem shipped_ne_nil : shippedItems ≠ [] := List.cons_ne_nil _ _

theorem shipped_read : readConfigFile (fun _ _ => 0) (fileText shippedItems) (CArray.zero bufSize)
    ⟨fun _ => 0, fun _ => []⟩ = some (meant shippedItems ⟨fun _ => 0, fun _ => []⟩) :=
  written_read shippedItems shipped_ne_nil (fun _ _ => 0) (CArray.zero bufSize)
    ⟨fun _ => 0, fun _ => []⟩

/-! ## Such a file is clear -/

theorem firstWord_entry (f : IntField ⊕ StrField) (gap : ℕ) (w : Text) (hw : IsWord w) :
    firstWord (entryLine (keyOf f) gap w) = some (keyOf f) := by
  rw [firstWord, words_entry (keyOf_word f) hw gap]
  rfl

theorem keyOf_injective : Function.Injective keyOf := fun f g h =>
  keyOf_suffix f g (h ▸ List.suffix_refl _)

theorem first_entry (f g : IntField ⊕ StrField) (gap : ℕ) (w : Text) (hw : IsWord w) :
    firstWord (entryLine (keyOf f) gap w) = some (keyOf g) ↔ g = f := by
  rw [firstWord_entry f gap w hw, Option.some.injEq, keyOf_injective.eq_iff]
  exact eq_comm

theorem remark_keyless (t : Text) (h : IsRemark t) (f : IntField ⊕ StrField) :
    firstWord (t ++ [newline]) ≠ some (keyOf f) := by
  have hlen : 3 ≤ (keyOf f).length := by rcases f with f | f <;> cases f <;> decide
  have hfirst : (keyOf f).head? ≠ some 0x23 := by rcases f with f | f <;> cases f <;> decide
  rw [firstWord, words_break isSpace t newline [] isSpace_newline]
  change (words isSpace t ++ []).head? ≠ _
  rw [List.append_nil]
  by_cases hblank : t.dropWhile isSpace = []
  · rw [words_blank isSpace t hblank]
    exact nofun
  · rw [words_next isSpace t hblank, List.head?_cons]
    intro hk
    rw [← Option.some.inj hk] at hlen hfirst
    rcases h.skipped with hs | hs
    · cases t with
      | nil => cases hs
      | cons c t =>
        obtain rfl := Option.some.inj hs
        rw [List.dropWhile_cons_of_neg (by decide), List.takeWhile_cons_of_pos (by decide)] at hfirst
        exact hfirst rfl
    · have htake := (List.takeWhile_prefix (fun c => !isSpace c) (l := t.dropWhile isSpace)).length_le
      have hdrop := (List.dropWhile_suffix isSpace (l := t)).length_le
      omega

theorem Item.remark_or_entry (i : Item) : (∃ t, IsRemark t ∧ i.text = t ++ [newline]) ∨
    ∃ f gap w, IsWord w ∧ i.text = entryLine (keyOf f) gap w := by
  cases i with
  | remark t h => exact .inl ⟨t, h, rfl⟩
  | int f gap v hl => exact .inr ⟨.inl f, gap, _, decimal_word v.toInt, rfl⟩
  | str f gap w hw hl => exact .inr ⟨.inr f, gap, w, hw, rfl⟩

theorem seen_iff_first (i : Item) (f : IntField ⊕ StrField) :
    Seen (keyOf f) i.text ↔ firstWord i.text = some (keyOf f) := by
  rcases i.remark_or_entry with ⟨t, h, ht⟩ | ⟨g, gap, w, hw, ht⟩
  · rw [ht]
    exact iff_of_false (fun hs => hs.1 (skipped_remark t h)) (remark_keyless t h f)
  · rw [ht, seen_entry g f gap w hw, first_entry g f gap w hw]

theorem written_iff_first (i : Item) (f : IntField ⊕ StrField) :
    Written (keyOf f) i.text ↔ firstWord i.text = some (keyOf f) := by
  rw [Written, seen_iff_first, and_iff_left_iff_imp]
  rcases i.remark_or_entry with ⟨t, h, ht⟩ | ⟨g, gap, w, hw, ht⟩
  · exact fun hk => absurd (ht ▸ hk) (remark_keyless t h f)
  · intro _
    rw [ht, secondWord_entry g gap w hw]
    rfl

theorem scan_of_first (i : Item) (f : IntField) (h : firstWord i.text = some f.key) :
    ∃ v, scanSecond i.text = some v ∧ (secondWord i.text).bind numeral = some v.toInt := by
  cases i with
  | remark t hr => exact absurd h (remark_keyless t hr (.inl f))
  | int g gap v hl =>
    have hsecond := secondWord_entry (.inl g) gap _ (decimal_word v.toInt)
    refine ⟨v, scanSecond_entry (keyOf_word (.inl g)) gap v, ?_⟩
    exact (congrArg (Option.bind · numeral) hsecond).trans (numeral_decimal v.toInt)
  | str g gap w hw hl => exact absurd ((first_entry (.inr g) (.inl f) gap w hw).mp h) Sum.inl_ne_inr

theorem own_filter (items : List Item) (key : Text) (P : Text → Prop) [DecidablePred P]
    (h : ∀ i : Item, P i.text ↔ firstWord i.text = some key) :
    (own key (fileText items)).filter P = own key (fileText items) := by
  rw [List.filter_eq_self]
  intro l hl
  obtain ⟨hm, hk⟩ := List.mem_filter.mp hl
  obtain ⟨i, -, rfl⟩ := mem_lines items l hm
  exact decide_eq_true ((h i).mpr (of_decide_eq_true hk))

theorem clear_written (items : List Item) (hne : items ≠ []) : Clear (fileText items) where
  nonempty := fileText_ne_nil items hne
  short := short_lines items
  intFirst l hl f hseen := by
    obtain ⟨i, -, rfl⟩ := mem_lines items l hl
    exact (seen_iff_first i (.inl f)).mp hseen
  strFirst l hl f hw := by
    obtain ⟨i, -, rfl⟩ := mem_lines items l hl
    exact (written_iff_first i (.inr f)).mp hw
  intLast f l hl := by
    obtain ⟨hm, hk⟩ := List.mem_filter.mp (List.mem_of_getLast? hl)
    obtain ⟨i, -, rfl⟩ := mem_lines items l hm
    obtain ⟨v, hscan, hv⟩ := scan_of_first i f (of_decide_eq_true hk)
    have hown := own_filter items f.key (Seen f.key) fun i => seen_iff_first i (.inl f)
    exact ⟨i.text, v, by rw [hown, hl], hscan, hv⟩
  strLast f l hl := by
    have hown := own_filter items f.key (Written f.key) fun i => written_iff_first i (.inr f)
    exact ⟨l, by rw [hown, hl], rfl⟩

theorem own_int (items : List Item) (f : IntField) (v : Int32)
    (h : (items.filterMap (Item.int? f)).getLast? = some v) :
    ∃ l, (own f.key (fileText items)).getLast? = some l ∧ (secondWord l).bind numeral = some v.toInt := by
  have hne : items ≠ [] := by rintro rfl; cases h
  have ht := taken_of_clear (fileText items) (clear_written items hne) (fun _ _ => 0)
    ⟨fun _ => otherInt v, fun _ => []⟩
  have hv : (meant items ⟨fun _ => otherInt v, fun _ => []⟩).ints f = v :=
    congrArg (Option.getD · (otherInt v)) h
  rw [run_written] at ht
  cases hl : (own f.key (fileText items)).getLast? with
  | none => exact absurd ((ht.intKept f (List.getLast?_eq_none_iff.mp hl)).symm.trans hv) (otherInt_ne v)
  | some l => exact ⟨l, rfl, by rw [ht.intTaken f l hl, hv]⟩

theorem own_str (items : List Item) (f : StrField) (w : Text)
    (h : (items.filterMap (Item.str? f)).getLast? = some w) :
    ∃ l, (own f.key (fileText items)).getLast? = some l ∧ secondWord l = some w := by
  have hne : items ≠ [] := by rintro rfl; cases h
  have ht := taken_of_clear (fileText items) (clear_written items hne) (fun _ _ => 0)
    ⟨fun _ => 0, fun _ => otherText w⟩
  have hw : (meant items ⟨fun _ => 0, fun _ => otherText w⟩).strs f = w :=
    congrArg (Option.getD · (otherText w)) h
  rw [run_written] at ht
  cases hl : (own f.key (fileText items)).getLast? with
  | none => exact absurd ((ht.strKept f (List.getLast?_eq_none_iff.mp hl)).symm.trans hw) (otherText_ne w)
  | some l => exact ⟨l, rfl, by rw [ht.strTaken f l hl, hw]⟩

end FasterConfig.ConfigText
