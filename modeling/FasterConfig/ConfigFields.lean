import FasterConfig.ConfigLines

/-!
# Which files are taken as they are meant

A field should get the second word of the last line that starts with its key.
It does unless a line is too long for the array, a key with a blank behind it
stands somewhere else in a line, or the blank behind the key is missing.
-/

set_option autoImplicit false

namespace FasterConfig.ConfigFields
open FasterConfig.Octets FasterConfig.Strings FasterConfig.ConfigFile FasterConfig.ConfigLines
open FasterConfig.Cidr (isDigit value)

/-- The number that a word is, with or without a sign. -/
def numeral (w : Text) : Option ℤ :=
  let digits := if w.head? = some 0x2d ∨ w.head? = some 0x2b then w.tail else w
  if digits = [] ∨ digits.all isDigit = false then none
  else some (if w.head? = some 0x2d then -value digits else value digits)

def own (key file : Text) : List Text := (fileLines file).filter fun l => firstWord l = some key

structure Taken (file : Text) (s s' : Fields) : Prop where
  intKept : ∀ f : IntField, own f.key file = [] → s'.ints f = s.ints f
  intTaken : ∀ (f : IntField) l, (own f.key file).getLast? = some l →
    (secondWord l).bind numeral = some (s'.ints f).toInt
  strKept : ∀ f : StrField, own f.key file = [] → s'.strs f = s.strs f
  strTaken : ∀ (f : StrField) l, (own f.key file).getLast? = some l →
    secondWord l = some (s'.strs f)

/-- Whatever the fields hold, the line leaves those alone whose key it does not start with. -/
structure Confined (line : Text) : Prop where
  ints : ∀ val s s', lineStep line val s = some s' →
    ∀ f : IntField, firstWord line ≠ some f.key → s'.ints f = s.ints f
  strs : ∀ val s s', lineStep line val s = some s' →
    ∀ f : StrField, firstWord line ≠ some f.key → s'.strs f = s.strs f

/-- Whatever the array, the numbers on the stack and the fields hold before. -/
structure Honoured (file : Text) : Prop where
  taken : ∀ (buf : CArray bufSize) val s, ∃ s', readConfigFile val file buf s = some s' ∧
    Taken file s s'
  confined : ∀ l ∈ fileLines file, Confined l

structure Clear (file : Text) : Prop where
  nonempty : file ≠ []
  short : ∀ l ∈ fileLines file, l.length < 64
  intFirst : ∀ l ∈ fileLines file, ∀ f : IntField, Seen f.key l → firstWord l = some f.key
  strFirst : ∀ l ∈ fileLines file, ∀ f : StrField, Written f.key l → firstWord l = some f.key
  intLast : ∀ (f : IntField) l, (own f.key file).getLast? = some l →
    ∃ m v, ((own f.key file).filter (Seen f.key)).getLast? = some m ∧ scanSecond m = some v ∧
      (secondWord l).bind numeral = some v.toInt
  strLast : ∀ (f : StrField) l, (own f.key file).getLast? = some l →
    ∃ m, ((own f.key file).filter (Written f.key)).getLast? = some m ∧ secondWord m = secondWord l

/-! ## Files whose lines fit -/

theorem nulless_lines (file : Text) (h0 : 0 ∉ file) : ∀ k ∈ fileLines file, 0 ∉ k := by
  intro k hk hm
  rw [← flatten_fileLines file] at h0
  exact h0 (List.mem_flatten_of_mem hk hm)

theorem read_run (file : Text) (h0 : 0 ∉ file) (hne : file ≠ [])
    (hl : ∀ l ∈ fileLines file, l.length < 64) (val : ℕ → IntField → Int32) (buf : CArray bufSize)
    (s : Fields) :
    readConfigFile val file buf s = some (run (passes (fileLines file)) val s) := by
  cases hls : fileLines file with
  | nil => exact absurd (fileLines_nil file hls) hne
  | cons l ls =>
    refine loop_run val file l ls hls (fun k hk => ?_) buf.octets s
    rw [← hls] at hk
    exact ⟨hl k hk, nulless_lines file h0 k hk⟩

theorem filter_own (P : Text → Prop) [DecidablePred P] (key file : Text)
    (h : ∀ l ∈ fileLines file, P l → firstWord l = some key) :
    (fileLines file).filter P = (own key file).filter P := by
  rw [own, List.filter_filter]
  apply List.filter_congr
  intro l hl
  have hp := h l hl
  by_cases hP : P l
  · simp [hP, hp hP]
  · simp [hP]

section
variable (file : Text)
  (hi : ∀ l ∈ fileLines file, ∀ f : IntField, Seen f.key l → firstWord l = some f.key)
  (hs : ∀ l ∈ fileLines file, ∀ f : StrField, Written f.key l → firstWord l = some f.key)

include hi in
theorem ints_own (f : IntField) (val : ℕ → IntField → Int32) (s : Fields) :
    ∃ i, (run (passes (fileLines file)) val s).ints f =
      (((own f.key file).filter (Seen f.key)).getLast?.map fun l =>
        readIntFromConfigLine l (val i f)).getD (s.ints f) := by
  have hlast := ints_last f (passes (fileLines file)) val s
  rwa [filter_passes, filter_own (Seen f.key) f.key file fun l hl => hi l hl f] at hlast

include hs in
theorem strs_own (f : StrField) (val : ℕ → IntField → Int32) (s : Fields) :
    (run (passes (fileLines file)) val s).strs f =
      ((((own f.key file).filter (Written f.key)).getLast?.map fun l =>
        (secondWord l).getD []).getD (s.strs f)) := by
  rw [strs_last, filter_own (Written f.key) f.key file fun l hl => hs l hl f]

end

theorem written_of_last (f : StrField) (m : Text) (ls : List Text)
    (h : (ls.filter (Written f.key)).getLast? = some m) : Written f.key m :=
  of_decide_eq_true (List.mem_filter.mp (List.mem_of_getLast? h)).2

/-! ## Clear files -/

theorem taken_of_clear (file : Text) (h : Clear file) (val : ℕ → IntField → Int32) (s : Fields) :
    Taken file s (run (passes (fileLines file)) val s) where
  intKept f hown := by
    obtain ⟨i, hlast⟩ := ints_own file h.intFirst f val s
    rw [hlast, hown]
    rfl
  intTaken f l hl := by
    obtain ⟨i, hlast⟩ := ints_own file h.intFirst f val s
    obtain ⟨m, v, hm, hscan, hv⟩ := h.intLast f l hl
    rw [hlast, hm, hv, Option.map_some, Option.getD_some, readIntFromConfigLine, hscan,
      Option.getD_some]
  strKept f hown := by
    rw [strs_own file h.strFirst f val s, hown]
    rfl
  strTaken f l hl := by
    obtain ⟨m, hm, hw⟩ := h.strLast f l hl
    obtain ⟨w, hsome⟩ := Option.isSome_iff_exists.mp (written_of_last f m _ hm).2
    rw [strs_own file h.strFirst f val s, hm, ← hw, hsome]
    simp [hsome]

theorem confined_of_clear (file : Text) (h : Clear file) (l : Text) (hl : l ∈ fileLines file) :
    Confined l where
  ints val s s' hstep f hf := by
    rw [lineStep_eq l (h.short l hl)] at hstep
    cases hstep
    exact if_neg fun hseen => hf (h.intFirst l hl f hseen)
  strs val s s' hstep f hf := by
    rw [lineStep_eq l (h.short l hl)] at hstep
    cases hstep
    exact if_neg fun hw => hf (h.strFirst l hl f hw)

/-! ## Files that are honoured -/

def otherInt (v : Int32) : Int32 := if v = 0 then 1 else 0

theorem otherInt_ne (v : Int32) : otherInt v ≠ v := by
  rw [otherInt]
  split_ifs with h
  · rw [h]
    decide
  · exact Ne.symm h

def otherText (w : Text) : Text := if w = [] then ascii "a" else []

theorem otherText_ne (w : Text) : otherText w ≠ w := by
  rw [otherText]
  split_ifs with h
  · rw [h]
    decide
  · exact Ne.symm h

def staleBuf : CArray bufSize := ⟨ascii "DnsIP 1" ++ List.replicate 57 0, by decide⟩

theorem nonempty_of_honoured (file : Text) (h : Honoured file) : file ≠ [] := by
  rintro rfl
  obtain ⟨s', hread, ht⟩ := h.taken staleBuf (fun _ _ => 0) ⟨fun _ => 0, fun _ => []⟩
  have hbuf : cString staleBuf.octets = ascii "DnsIP 1" := by decide
  rw [readConfigFile, loop_end, hbuf, lineStep_eq _ (by decide)] at hread
  have hkept := ht.strKept .dnsIP rfl
  rw [← Option.some.inj hread, effect] at hkept
  exact absurd hkept (by decide)

theorem short_of_honoured (file : Text) (h0 : 0 ∉ file) (h : Honoured file) :
    ∀ l ∈ fileLines file, l.length < 64 := by
  intro l hl
  by_contra hlen
  obtain ⟨s', hread, -⟩ := h.taken staleBuf (fun _ _ => 0) ⟨fun _ => 0, fun _ => []⟩
  rw [readConfigFile, loop_overruns _ file (nulless_lines file h0) ⟨l, hl, by omega⟩] at hread
  cases hread

theorem intFirst_of_confined (l : Text) (hlen : l.length < 64) (h : Confined l) (f : IntField)
    (hseen : Seen f.key l) : firstWord l = some f.key := by
  by_contra hf
  have hkept := h.ints (fun _ => 0) ⟨fun _ => otherInt (readIntFromConfigLine l 0), fun _ => []⟩ _
    (lineStep_eq l hlen _ _) f hf
  rw [effect] at hkept
  simp only [if_pos hseen] at hkept
  exact otherInt_ne _ hkept.symm

theorem strFirst_of_confined (l : Text) (hlen : l.length < 64) (h : Confined l) (f : StrField)
    (hw : Written f.key l) : firstWord l = some f.key := by
  by_contra hf
  have hkept := h.strs (fun _ => 0) ⟨fun _ => 0, fun _ => otherText ((secondWord l).getD [])⟩ _
    (lineStep_eq l hlen _ _) f hf
  rw [effect] at hkept
  simp only [if_pos hw] at hkept
  exact otherText_ne _ hkept.symm

section
variable (file : Text)
  (hi : ∀ l ∈ fileLines file, ∀ f : IntField, Seen f.key l → firstWord l = some f.key)
  (hs : ∀ l ∈ fileLines file, ∀ f : StrField, Written f.key l → firstWord l = some f.key)
  (htaken : ∀ val s, Taken file s (run (passes (fileLines file)) val s))
include htaken

include hi in
theorem intLast_of_taken (f : IntField) (l : Text) (hl : (own f.key file).getLast? = some l) :
    ∃ m v, ((own f.key file).filter (Seen f.key)).getLast? = some m ∧ scanSecond m = some v ∧
      (secondWord l).bind numeral = some v.toInt := by
  obtain ⟨v, hv⟩ : ∃ v : Int32, (secondWord l).bind numeral = some v.toInt :=
    ⟨_, (htaken (fun _ _ => 0) ⟨fun _ => 0, fun _ => []⟩).intTaken f l hl⟩
  have hnum := (htaken (fun _ _ => otherInt v) ⟨fun _ => otherInt v, fun _ => []⟩).intTaken f l hl
  obtain ⟨i, hlast⟩ := ints_own file hi f (fun _ _ => otherInt v) ⟨fun _ => otherInt v, fun _ => []⟩
  rw [hv, hlast, Option.some.injEq, Int32.toInt_inj] at hnum
  cases hm : ((own f.key file).filter (Seen f.key)).getLast? with
  | none =>
    rw [hm] at hnum
    exact absurd hnum.symm (otherInt_ne v)
  | some m =>
    rw [hm, Option.map_some, Option.getD_some, readIntFromConfigLine] at hnum
    cases hscan : scanSecond m with
    | none =>
      rw [hscan] at hnum
      exact absurd hnum.symm (otherInt_ne v)
    | some u =>
      rw [hscan, Option.getD_some] at hnum
      exact ⟨m, u, rfl, hscan, by rw [hv, hnum]⟩

include hs in
theorem strLast_of_taken (f : StrField) (l : Text) (hl : (own f.key file).getLast? = some l) :
    ∃ m, ((own f.key file).filter (Written f.key)).getLast? = some m ∧
      secondWord m = secondWord l := by
  obtain ⟨w, hw⟩ : ∃ w, secondWord l = some w :=
    ⟨_, (htaken (fun _ _ => 0) ⟨fun _ => 0, fun _ => []⟩).strTaken f l hl⟩
  have hword := (htaken (fun _ _ => 0) ⟨fun _ => 0, fun _ => otherText w⟩).strTaken f l hl
  rw [hw, strs_own file hs f, Option.some.injEq] at hword
  cases hm : ((own f.key file).filter (Written f.key)).getLast? with
  | none =>
    rw [hm] at hword
    exact absurd hword.symm (otherText_ne w)
  | some m =>
    obtain ⟨u, hu⟩ := Option.isSome_iff_exists.mp (written_of_last f m _ hm).2
    rw [hm, Option.map_some, Option.getD_some, hu, Option.getD_some] at hword
    exact ⟨m, rfl, by rw [hu, hw, hword]⟩

end

theorem clear_of_honoured (file : Text) (h0 : 0 ∉ file) (h : Honoured file) : Clear file := by
  have hne := nonempty_of_honoured file h
  have hshort := short_of_honoured file h0 h
  have hi : ∀ l ∈ fileLines file, ∀ f : IntField, Seen f.key l → firstWord l = some f.key :=
    fun l hl f => intFirst_of_confined l (hshort l hl) (h.confined l hl) f
  have hs : ∀ l ∈ fileLines file, ∀ f : StrField, Written f.key l → firstWord l = some f.key :=
    fun l hl f => strFirst_of_confined l (hshort l hl) (h.confined l hl) f
  have htaken : ∀ val s, Taken file s (run (passes (fileLines file)) val s) := by
    intro val s
    obtain ⟨s', hread, ht⟩ := h.taken staleBuf val s
    rw [read_run file h0 hne hshort] at hread
    exact Option.some.inj hread ▸ ht
  refine ⟨hne, hshort, hi, hs, ?_, ?_⟩
  · exact fun f l hl => intLast_of_taken file hi htaken f l hl
  · exact fun f l hl => strLast_of_taken file hs htaken f l hl

theorem honoured_iff_clear (file : {s : Text // 0 ∉ s}) : Honoured file ↔ Clear file := by
  constructor
  · exact clear_of_honoured file file.property
  · intro h
    refine ⟨fun buf val s => ⟨_, ?_, taken_of_clear file h val s⟩, confined_of_clear file h⟩
    exact read_run file file.property h.nonempty h.short val buf s

example : Clear (ascii "HttpPort 2049") where
  nonempty := by decide
  short := by decide
  intFirst l hl f := by
    obtain rfl := List.mem_singleton.mp (show l ∈ [ascii "HttpPort 2049"] from hl)
    cases f <;> decide
  strFirst l hl f := by
    obtain rfl := List.mem_singleton.mp (show l ∈ [ascii "HttpPort 2049"] from hl)
    cases f <;> decide
  intLast f l hl := by
    cases f with
    | dnsPort => cases hl
    | HttpPort =>
      cases hl
      exact ⟨ascii "HttpPort 2049", 2049, by decide, by decide, by decide⟩
  strLast f l hl := by
    cases f <;> cases hl

/-- A comment that does not start at the beginning of its line. -/
def indentedComment : Text := ascii " # DnsIP is the blocked one\n"

theorem indented_comment_taken : ¬ Honoured indentedComment := by
  intro h
  have hconfined := h.confined indentedComment (by decide)
  exact absurd (strFirst_of_confined indentedComment (by decide) hconfined .dnsIP (by decide))
    (by decide)

end FasterConfig.ConfigFields
