import FasterConfig.HttpdOutput
import FasterConfig.HttpdRequest
import Mathlib.Data.List.TakeWhile

/-!
# Pages

A page adds its title, its message and the node to the variables of the
request, behind those of the query, and a lookup takes the first value of a
name. So the query decides what a template shows wherever it has stored
anything else than the page's own value.
-/

set_option autoImplicit false

namespace FasterConfig.HttpdPage
open FasterConfig.Strings FasterConfig.HttpdVariables FasterConfig.HttpdOutput
open FasterConfig.HttpdRequest

def titleName : Text := [0x74, 0x69, 0x74, 0x6c, 0x65]

def messageName : Text := [0x6d, 0x65, 0x73, 0x73, 0x61, 0x67, 0x65]

def nodeIdName : Text := [0x6e, 0x6f, 0x64, 0x65, 0x49, 0x44]

def nodeId : Text := [0x31, 0x32, 0x33] -- 123

def addPageVariables (vars : Variables Text) (title message : Text) : Variables Text :=
  httpdAddVariable (httpdAddVariable (httpdAddVariable vars titleName title) messageName message)
    nodeIdName nodeId

def sendHttpPage (vars : Variables Text) (template title message : Text) : Text :=
  (httpdOutput (firstValue (addPageVariables vars title message)) template).body

def pageValue (title message n : Text) : Option Text :=
  if n = titleName then some title
  else if n = messageName then some message
  else if n = nodeIdName then some nodeId
  else none

theorem firstValue_page (vars : Variables Text) (title message n : Text) :
    firstValue (addPageVariables vars title message) n =
      (firstValue vars n).or (pageValue title message n) := by
  have h1 : skipBlanks titleName = titleName := by decide
  have h2 : skipBlanks messageName = messageName := by decide
  have h3 : skipBlanks nodeIdName = nodeIdName := by decide
  have h12 : messageName ≠ titleName := by decide
  have h13 : nodeIdName ≠ titleName := by decide
  have h23 : nodeIdName ≠ messageName := by decide
  simp only [addPageVariables, firstValue_add, pageValue, h1, h2, h3]
  cases firstValue vars n <;> split_ifs <;> simp_all

/-! ## Templates that refer to the page only -/

/-- The names of the page, and the empty one behind a `$` that begins no reference. -/
def pageNames : List Text := [[], titleName, messageName, nodeIdName]

def RefersOnly (template : Text) : Prop :=
  ∀ rest, dollar::rest <:+ template → nameAt rest ∈ pageNames

theorem refersOnly_scan (rest : Text) (h : nameAt rest ∈ pageNames) : scanName rest = nameAt rest := by
  have hall : ∀ n ∈ pageNames, n.length < varNameSize := by decide
  exact scanName_short rest (hall _ h)

theorem step_congr (f g : Text → Option Text) (s : OutState)
    (h : ∀ rest, dollar::rest <:+ s.src → f (scanName rest) = g (scanName rest)) :
    outputStep f s = outputStep g s := by
  obtain ⟨src, dest, count, writes⟩ := s
  cases src with
  | nil => rfl
  | cons c rest =>
    have he : expansion f count c rest = expansion g count c rest := by
      unfold expansion
      split_ifs with hc
      · rw [h rest (by rw [hc])]
      · rfl
    simp only [outputStep, he]

theorem step_suffix (f : Text → Option Text) (s : OutState) : (outputStep f s).src <:+ s.src := by
  obtain ⟨src, dest, count, writes⟩ := s
  cases src with
  | nil => exact List.suffix_refl _
  | cons c rest =>
    simp only [outputStep]
    split
    · exact (List.drop_suffix _ _).trans (List.suffix_cons c rest)
    · exact List.suffix_cons c rest

theorem loop_congr (f g : Text → Option Text) (s : OutState)
    (h : ∀ rest, dollar::rest <:+ s.src → f (scanName rest) = g (scanName rest)) :
    outputLoop f s = outputLoop g s := by
  induction s using loop_induction f with
  | stop s hstop => rw [outputLoop_stop f s hstop, outputLoop_stop g s hstop]
  | step s hs hc ih =>
    rw [outputLoop_step f s hs hc, outputLoop_step g s hs hc, ← step_congr f g s h]
    exact ih fun rest hr => h rest (hr.trans (step_suffix f s))

/-- What a query has stored under the names of the page is what the page would store; under
the empty name it has stored nothing. -/
def Untouched (vars : Variables Text) (title message : Text) : Prop :=
  ∀ n ∈ pageNames, ∀ v, firstValue vars n = some v → pageValue title message n = some v

theorem untouched_same (vars : Variables Text) (template title message : Text)
    (h : Untouched vars title message) (ht : RefersOnly template) :
    sendHttpPage vars template title message = sendHttpPage [] template title message := by
  have hl := loop_congr (firstValue (addPageVariables vars title message))
    (firstValue (addPageVariables [] title message)) ⟨template, [], 0, bufCells 0 httpMaxLen⟩
    fun rest hr => by
      have hn := ht rest hr
      rw [refersOnly_scan rest hn, firstValue_page, firstValue_page, firstValue_nil, Option.none_or]
      cases hv : firstValue vars (nameAt rest) with
      | none => rfl
      | some v => exact (h _ hn v hv).symm
  simp only [sendHttpPage, httpdOutput, hl]

/-! ## Templates that tell stores apart -/

theorem loop_plain (f : Text → Option Text) (src dest : Text) (count : ℕ) (writes : List Cell)
    (h : dollar ∉ src) :
    (outputLoop f ⟨src, dest, count, writes⟩).dest = dest ++ src.take (httpMaxLen-count) := by
  induction src generalizing dest count writes with
  | nil => rw [outputLoop_stop f _ (.inl rfl), List.take_nil, List.append_nil]
  | cons c rest ih =>
    by_cases hc : count < httpMaxLen
    · have hd : c ≠ dollar := fun he => h (by simp [he])
      rw [outputLoop_step f _ (by simp) hc]
      simp only [outputStep, expansion, if_neg hd]
      rw [ih _ _ _ fun hm => h (by simp [hm]), ← Nat.sub_sub,
        show httpMaxLen-count = (httpMaxLen-count-1)+1 by omega, List.take_succ_cons,
        List.append_assoc]
      rfl
    · rw [outputLoop_stop f _ (.inr (Nat.le_of_not_lt hc)), show httpMaxLen-count = 0 by omega, List.take_zero,
        List.append_nil]

theorem output_reference (f : Text → Option Text) (n tail : Text) (hn : nameAt (n ++ tail) = n)
    (hs : n.length < varNameSize) (hd : dollar ∉ n ++ tail) :
    (httpdOutput f (dollar::(n ++ tail))).body =
      match (f n).filter fun v => v.length < httpMaxLen with
      | some v => v ++ tail.take httpMaxLen
      | none => (dollar::(n ++ tail)).take httpMaxLen := by
  have hscan : scanName (n ++ tail) = n := by rw [scanName_short _ (by rw [hn]; exact hs), hn]
  have he : expansion f 0 dollar (n ++ tail) = (f n).filter fun v => v.length < httpMaxLen := by
    simp only [expansion, if_true, hscan, Nat.zero_add]
  rw [httpdOutput, outputLoop_step f _ (by simp) (show 0 < httpMaxLen by decide)]
  simp only [outputStep, he, hscan]
  cases (f n).filter fun v => v.length < httpMaxLen with
  | none =>
    simp only
    rw [loop_plain f _ _ _ _ hd]
    rfl
  | some v =>
    simp only
    rw [loop_plain f _ _ _ _ fun hm => hd (List.mem_of_mem_drop hm), List.drop_left]
    rfl

def blanks : Text := List.replicate httpMaxLen 0x20

theorem dollar_not_mem_blanks (n : Text) (hd : dollar ∉ n) : dollar ∉ n ++ blanks := by
  rw [List.mem_append, not_or]
  exact ⟨hd, fun hm => absurd (List.eq_of_mem_replicate hm) (by decide)⟩

/-- A name of the page alone and in front of blanks tell a store with a value from one
without, or with a value that is never put in. The second page is only needed for the value `$`
under the empty name and for values that are never put in; it has 10241 octets, more than the
array of the page can hold. -/
theorem reference_differs (f g : Text → Option Text) (n v : Text) (hn : nameAt n = n)
    (hb : nameAt (n ++ blanks) = n) (hs : n.length < varNameSize) (hd : dollar ∉ n)
    (hf : f n = some v) (hv : v.length < httpMaxLen) (hg : g n ≠ some v)
    (h1 : (httpdOutput f (dollar::(n ++ []))).body = (httpdOutput g (dollar::(n ++ []))).body) :
    (httpdOutput f (dollar::(n ++ blanks))).body ≠ (httpdOutput g (dollar::(n ++ blanks))).body := by
  have hblank := dollar_not_mem_blanks n hd
  have hlen : blanks.length = httpMaxLen := by rw [blanks, List.length_replicate]
  have hfilter : (f n).filter (fun v => v.length < httpMaxLen) = some v := by simp [hf, hv]
  have hnil : dollar ∉ n ++ [] := by rwa [List.append_nil]
  rw [output_reference f n [] (by rw [List.append_nil]; exact hn) hs hnil,
    output_reference g n [] (by rw [List.append_nil]; exact hn) hs hnil, hfilter] at h1
  rw [output_reference f n blanks hb hs hblank, output_reference g n blanks hb hs hblank, hfilter]
  cases hw : (g n).filter fun v => v.length < httpMaxLen with
  | some w =>
    rw [hw] at h1
    simp only [List.take_nil, List.append_nil] at h1
    exact absurd (Option.eq_some_of_filter_eq_some hw) (h1 ▸ hg)
  | none =>
    rw [hw] at h1
    intro h2
    -- the second template makes the value empty, the first one a `$` and a name
    have hl := congrArg List.length h2
    simp only [List.length_append, List.length_take, List.length_cons, hlen] at hl
    have hv0 : v = [] := List.eq_nil_of_length_eq_zero (by omega)
    rw [hv0] at h1
    exact absurd h1 (by simp [httpMaxLen])

theorem pageNames_names : ∀ n ∈ pageNames, nameAt n = n ∧ n.length < varNameSize ∧ dollar ∉ n := by
  decide

theorem nameAt_blanks (n : Text) (h : nameAt n = n) : nameAt (n ++ blanks) = n := by
  have hall : ∀ c ∈ n, isNameChar c = true := List.takeWhile_eq_self_iff.mp h
  have hb : blanks = 0x20::List.replicate (httpMaxLen-1) 0x20 := rfl
  rw [nameAt, List.takeWhile_append_of_pos hall, hb, List.takeWhile_cons_of_neg (by decide),
    List.append_nil]

theorem refersOnly_reference (n tail : Text) (hn : n ∈ pageNames) (ht : nameAt (n ++ tail) = n)
    (hd : dollar ∉ n ++ tail) : RefersOnly (dollar::(n ++ tail)) := by
  intro rest hr
  rcases List.suffix_cons_iff.mp hr with he | hs
  · rw [(List.cons.inj he).2, ht]
    exact hn
  · exact absurd (hs.subset (by simp)) hd

theorem same_untouched (vars : Variables Text) (title message : Text)
    (hv : ValuesIn (fun v => v.length < httpMaxLen) vars)
    (h : ∀ template, RefersOnly template →
      sendHttpPage vars template title message = sendHttpPage [] template title message) :
    Untouched vars title message := by
  intro n hn v hf
  by_contra hg
  obtain ⟨hname, hs, hd⟩ := pageNames_names n hn
  have hblank := dollar_not_mem_blanks n hd
  have hp : firstValue (addPageVariables vars title message) n = some v := by
    rw [firstValue_page, hf, Option.some_or]
  have hw : firstValue (addPageVariables [] title message) n ≠ some v := by
    rwa [firstValue_page, firstValue_nil, Option.none_or]
  apply reference_differs _ _ n v hname (nameAt_blanks n hname) hs hd hp (hv n v hf) hw
  · exact h _ (refersOnly_reference n [] hn (by rwa [List.append_nil]) (by rwa [List.append_nil]))
  · exact h _ (refersOnly_reference n blanks hn (nameAt_blanks n hname) hblank)

def queryVariables (p q : Text) : Variables Text := (readTarget (p ++ questionMark::q)).vars

theorem query_untouched_iff (p q title message : Text) :
    (∀ template, RefersOnly template → sendHttpPage (queryVariables p q) template title message =
      sendHttpPage [] template title message) ↔ Untouched (queryVariables p q) title message := by
  constructor
  · apply same_untouched
    intro n v hv
    exact lt_trans (readTarget_values _ n v hv) (by decide)
  · exact fun h template ht => untouched_same _ template title message h ht

/-- Two requests that differ in their queries get the page's own text, for every template
that refers to the page only, exactly when neither query has put a value of its own first
under a name of the page. -/
theorem page_ignores_queries_iff (p q₁ q₂ title message : Text) :
    (∀ template, RefersOnly template →
      sendHttpPage (queryVariables p q₁) template title message =
        sendHttpPage [] template title message ∧
      sendHttpPage (queryVariables p q₂) template title message =
        sendHttpPage [] template title message) ↔
    Untouched (queryVariables p q₁) title message ∧ Untouched (queryVariables p q₂) title message := by
  rw [← query_untouched_iff p q₁, ← query_untouched_iff p q₂]
  exact ⟨fun h => ⟨fun t ht => (h t ht).1, fun t ht => (h t ht).2⟩,
    fun h t ht => ⟨h.1 t ht, h.2 t ht⟩⟩

def fasterconfigPath : Text :=
  [0x2f, 0x66, 0x61, 0x73, 0x74, 0x65, 0x72, 0x63, 0x6f, 0x6e, 0x66, 0x69, 0x67]

def titleQuery : Text := titleName ++ [0x3d, 0x78] -- title=x

def pageTitle : Text :=
  [0x46, 0x61, 0x73, 0x74, 0x65, 0x72, 0x43, 0x6f, 0x6e, 0x66, 0x69, 0x67]

theorem query_replaces_title :
    sendHttpPage (queryVariables fasterconfigPath titleQuery) (dollar::titleName) pageTitle [] = [0x78] ∧
      sendHttpPage (queryVariables fasterconfigPath []) (dollar::titleName) pageTitle [] = pageTitle := by
  decide +kernel

end FasterConfig.HttpdPage
