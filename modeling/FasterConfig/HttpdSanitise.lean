import FasterConfig.HttpdRequest
import Mathlib.Tactic.IntervalCases

/-!
# Cleaning a path in place

The three passes look for a slash followed by no, one or two dots and another
slash; the last one also takes the element before it back. Read and write
position run over one array. What a pass leaves is free of its own sequence
and of those the passes before it have removed.
-/

set_option autoImplicit false

namespace FasterConfig.HttpdSanitise
open FasterConfig.Strings FasterConfig.HttpdRequest

def dots (n : ℕ) : Text := List.replicate n dot ++ [slash]

theorem not_mem_dots (b : UInt8) (n : ℕ) (hd : b ≠ dot) (hs : b ≠ slash) : b ∉ dots n := by
  intro h
  rcases List.mem_append.mp h with hm | hm
  · exact hd (List.eq_of_mem_replicate hm)
  · exact hs (List.mem_singleton.mp hm)

def Free (n : ℕ) (s : Text) : Prop := ∀ rest, slash::rest <:+ s → ¬ dots n <+: rest

theorem free_iff (n : ℕ) (s : Text) : Free n s ↔ ¬ slash::dots n <:+: s := by
  rw [List.infix_iff_prefix_suffix]
  constructor
  · rintro h ⟨t, ⟨r, rfl⟩, ht⟩
    exact h (dots n ++ r) ht (List.prefix_append _ _)
  · intro h rest hr hp
    exact h ⟨slash::rest, List.cons_prefix_cons.mpr ⟨rfl, hp⟩, hr⟩

theorem Free.suffix {n : ℕ} {s t : Text} (h : Free n s) (ht : t <:+ s) : Free n t :=
  fun rest hr => h rest (hr.trans ht)

/-! ## The passes as one function -/

/-- `dest` is what has been written so far and `last` where its last slash stands; with
`back` the pass returns to it. -/
def sweep (n : ℕ) (back : Bool) (dest : Text) (last : ℕ) (url : Text) : Text :=
  match url with
  | [] => dest
  | c::rest =>
    if c = slash ∧ dots n <+: rest then
      sweep n back (if back then dest.take last else dest) last (rest.drop n)
    else sweep n back (dest ++ [c]) (if c = slash then dest.length else last) rest
termination_by url.length
decreasing_by all_goals simp only [List.length_drop, List.length_cons]; omega

theorem removeSlashes_cons (c : UInt8) (rest : Text) :
    removeSlashes (c::rest) =
      if c = slash ∧ dots 0 <+: rest then removeSlashes rest else c::removeSlashes rest := by
  have h : rest.head? = some slash ↔ dots 0 <+: rest := by
    cases rest <;> simp [dots, eq_comm]
  simp only [removeSlashes, h]

theorem removeDots_cons (c : UInt8) (rest : Text) :
    removeDots (c::rest) =
      if c = slash ∧ dots 1 <+: rest then removeDots (rest.drop 1) else c::removeDots rest := by
  rw [removeDots]
  rfl

theorem removeParents_cons (dest : Text) (last : ℕ) (c : UInt8) (rest : Text) :
    removeParents dest last (c::rest) =
      if c = slash ∧ dots 2 <+: rest then removeParents (dest.take last) last (rest.drop 2)
      else removeParents (dest ++ [c]) (if c = slash then dest.length else last) rest := by
  rw [removeParents]
  rfl

theorem sweep_slashes (dest : Text) (last : ℕ) (url : Text) :
    sweep 0 false dest last url = dest ++ removeSlashes url := by
  fun_induction sweep 0 false dest last url with
  | case1 dest last => simp [removeSlashes]
  | case2 dest last c rest h ih =>
    rw [removeSlashes_cons, if_pos h]
    exact ih
  | case3 dest last c rest h ih =>
    simp only [dite_eq_ite] at ih
    rw [removeSlashes_cons, if_neg h, ih, List.append_assoc]
    rfl

theorem sweep_dots (dest : Text) (last : ℕ) (url : Text) :
    sweep 1 false dest last url = dest ++ removeDots url := by
  fun_induction sweep 1 false dest last url with
  | case1 dest last => simp [removeDots]
  | case2 dest last c rest h ih =>
    rw [removeDots_cons, if_pos h]
    exact ih
  | case3 dest last c rest h ih =>
    simp only [dite_eq_ite] at ih
    rw [removeDots_cons, if_neg h, ih, List.append_assoc]
    rfl

theorem sweep_parents (dest : Text) (last : ℕ) (url : Text) :
    sweep 2 true dest last url = removeParents dest last url := by
  fun_induction sweep 2 true dest last url with
  | case1 dest last => rw [removeParents]
  | case2 dest last c rest h ih =>
    rw [removeParents_cons, if_pos h]
    exact ih
  | case3 dest last c rest h ih =>
    simp only [dite_eq_ite] at ih
    rw [removeParents_cons, if_neg h]
    exact ih

theorem sanitiseUrl_sweeps (url : Text) :
    httpdSanitiseUrl url = sweep 2 true [] 0 (sweep 1 false [] 0 (sweep 0 false [] 0 url)) := by
  rw [sweep_slashes, sweep_dots, sweep_parents]
  rfl

/-! ## What a pass leaves -/

theorem dots_prefix_slash (n : ℕ) (r x y : Text) (h : dots n <+: r ++ slash::x) :
    dots n <+: r ++ slash::y := by
  induction r generalizing n with
  | nil =>
    cases n with
    | zero => simp [dots]
    | succ n =>
      rw [dots, List.replicate_succ, List.cons_append, List.nil_append] at h
      exact absurd (List.cons_prefix_cons.mp h).1 (by decide)
  | cons c r ih =>
    cases n with
    | zero => simpa [dots] using h
    | succ n =>
      rw [dots, List.replicate_succ, List.cons_append, List.cons_append, List.cons_prefix_cons] at h ⊢
      exact ⟨h.1, ih n h.2⟩

theorem prefix_stop (p rest tail : Text) (b : UInt8) (hp : b ∉ p) :
    p <+: rest ++ b::tail ↔ p <+: rest := by
  constructor
  · intro h
    induction rest generalizing p with
    | nil =>
      cases p with
      | nil => exact List.nil_prefix
      | cons d p => exact absurd (by simp [(List.cons_prefix_cons.mp h).1]) hp
    | cons c rest ih =>
      cases p with
      | nil => exact List.nil_prefix
      | cons d p =>
        obtain ⟨hd, hr⟩ := List.cons_prefix_cons.mp h
        exact List.cons_prefix_cons.mpr ⟨hd, ih p (fun hm => hp (by simp [hm])) hr⟩
  · exact fun h => h.trans (List.prefix_append _ _)

/-- Every slash that has been written is followed by something else than `n` dots and a
slash, in what is written and then in what is left. -/
def FreeIn (n : ℕ) (dest url : Text) : Prop := ∀ r, slash::r <:+ dest → ¬ dots n <+: r ++ url

/-- The place the pass goes back to: the start, or a slash with nothing but its own element
between it and what is left. -/
def Marked (dest : Text) (last : ℕ) (url : Text) : Prop :=
  last = 0 ∨ last ≤ dest.length ∧ ∃ name, dest.drop last ++ url = slash::name

theorem freeIn_write (n : ℕ) (dest : Text) (c : UInt8) (rest : Text) (h : FreeIn n dest (c::rest))
    (hc : c = slash → ¬ dots n <+: rest) : FreeIn n (dest ++ [c]) rest := by
  intro r hr
  rcases List.suffix_concat_iff.mp hr with hn | ⟨t, ht, hs⟩
  · exact absurd hn (List.cons_ne_nil _ _)
  · cases t with
    | nil =>
      obtain ⟨rfl, rfl⟩ := List.cons.inj ht
      exact hc rfl
    | cons d t =>
      obtain ⟨hd, hq⟩ := List.cons.inj ht
      have ha := h t (hd ▸ hs)
      rwa [hq, show t.append [c] ++ rest = t ++ c::rest by simp]

theorem freeIn_skip (n : ℕ) (dest x y : Text) (h : FreeIn n dest (slash::x)) :
    FreeIn n dest (slash::y) :=
  fun r hr hp => h r hr (dots_prefix_slash n r y x hp)

theorem freeIn_back (n : ℕ) (dest : Text) (last : ℕ) (url y : Text) (hm : Marked dest last url)
    (h : FreeIn n dest url) : FreeIn n (dest.take last) (slash::y) := by
  intro r hr hp
  rcases hm with rfl | ⟨hl, name, hname⟩
  · exact absurd (List.suffix_nil.mp hr) (List.cons_ne_nil _ _)
  · have hs : slash::(r ++ dest.drop last) <:+ dest := by
      obtain ⟨p, hp⟩ := hr
      refine ⟨p, ?_⟩
      rw [← List.cons_append, ← List.append_assoc, hp, List.take_append_drop]
    apply h _ hs
    rw [List.append_assoc, hname]
    exact dots_prefix_slash n r y name hp

theorem marked_write (dest : Text) (last : ℕ) (c : UInt8) (rest : Text)
    (hm : Marked dest last (c::rest)) :
    Marked (dest ++ [c]) (if c = slash then dest.length else last) rest := by
  split_ifs with hc
  · exact .inr ⟨by simp, rest, by simp [hc]⟩
  · rcases hm with rfl | ⟨hl, name, hname⟩
    · exact .inl rfl
    · refine .inr ⟨by simp; omega, name, ?_⟩
      rw [List.drop_append_of_le_length hl, List.append_assoc]
      exact hname

theorem marked_back (dest : Text) (last : ℕ) (url y : Text) (hm : Marked dest last url) :
    Marked (dest.take last) last (slash::y) := by
  rcases hm with rfl | ⟨hl, -⟩
  · exact .inl rfl
  · exact .inr ⟨by simp [hl], y, by simp⟩

theorem dots_length_le (n : ℕ) (rest : Text) (h : dots n <+: rest) : n ≤ rest.length := by
  have hl := h.length_le
  simp only [dots, List.length_append, List.length_replicate, List.length_cons] at hl
  omega

theorem drop_dots (n : ℕ) (rest : Text) (h : dots n <+: rest) :
    ∃ y, rest.drop n = slash::y := by
  obtain ⟨t, rfl⟩ := h
  exact ⟨t, by simp [dots]⟩

/-- A pass makes its own sequence impossible and keeps every other one away that was not
there before. -/
theorem sweep_free (m n : ℕ) (back : Bool) (dest : Text) (last : ℕ) (url : Text)
    (hd : FreeIn m dest url) (hu : m = n ∨ Free m url) (hm : back = true → Marked dest last url) :
    Free m (sweep n back dest last url) := by
  fun_induction sweep n back dest last url with
  | case1 dest last => simpa [Free, FreeIn] using hd
  | case2 dest last c rest h ih =>
    obtain ⟨rfl, hp⟩ := h
    obtain ⟨y, hy⟩ := drop_dots n rest hp
    have hs : rest.drop n <:+ slash::rest := (List.drop_suffix _ _).trans (List.suffix_cons _ _)
    simp only [dite_eq_ite, hy] at ih hs ⊢
    apply ih
    · cases back with
      | false => exact freeIn_skip m dest rest y hd
      | true => exact freeIn_back m dest last _ y (hm rfl) hd
    · exact hu.imp_right fun hf => hf.suffix hs
    · rintro rfl
      exact marked_back dest last _ y (hm rfl)
  | case3 dest last c rest h ih =>
    simp only [dite_eq_ite] at ih
    apply ih
    · apply freeIn_write m dest c rest hd
      rintro rfl hp
      rcases hu with rfl | hf
      · exact h ⟨rfl, hp⟩
      · exact hf rest (List.suffix_refl _) hp
    · exact hu.imp_right fun hf => hf.suffix (List.suffix_cons _ _)
    · exact fun hb => marked_write dest last c rest (hm hb)

theorem sweep_of_free (n : ℕ) (back : Bool) (dest : Text) (last : ℕ) (url : Text)
    (h : Free n url) : sweep n back dest last url = dest ++ url := by
  fun_induction sweep n back dest last url with
  | case1 dest last => simp
  | case2 dest last c rest hm ih =>
    obtain ⟨rfl, hp⟩ := hm
    exact absurd hp (h rest (List.suffix_refl _))
  | case3 dest last c rest hm ih =>
    simp only [dite_eq_ite] at ih
    rw [ih (h.suffix (List.suffix_cons _ _)), List.append_assoc]
    rfl

/-- A character that no sequence holds keeps what stands before it apart from what stands
behind it. -/
theorem sweep_stop (n : ℕ) (back : Bool) (dest : Text) (last : ℕ) (url tail : Text) (b : UInt8)
    (hd : b ≠ dot) (hs : b ≠ slash) (h : Free n tail) :
    sweep n back dest last (url ++ b::tail) = sweep n back dest last url ++ b::tail := by
  have hb := not_mem_dots b n hd hs
  fun_induction sweep n back dest last url with
  | case1 dest last =>
    rw [List.nil_append, sweep, if_neg fun hc => hs hc.1, sweep_of_free n _ _ _ tail h]
    simp
  | case2 dest last c rest hm ih =>
    simp only [dite_eq_ite] at ih
    rw [List.cons_append, sweep, if_pos ⟨hm.1, (prefix_stop _ _ _ _ hb).mpr hm.2⟩,
      List.drop_append_of_le_length (dots_length_le n rest hm.2)]
    exact ih
  | case3 dest last c rest hm ih =>
    simp only [dite_eq_ite] at ih
    rw [List.cons_append, sweep, if_neg fun hp => hm ⟨hp.1, (prefix_stop _ _ _ _ hb).mp hp.2⟩]
    exact ih

theorem freeIn_nil (n : ℕ) (url : Text) : FreeIn n [] url :=
  fun _ hr => absurd (List.suffix_nil.mp hr) (List.cons_ne_nil _ _)

theorem pass_free (m n : ℕ) (back : Bool) (url : Text) (h : m = n ∨ Free m url) :
    Free m (sweep n back [] 0 url) :=
  sweep_free m n back [] 0 url (freeIn_nil m url) h fun _ => .inl rfl

theorem sanitiseUrl_free (url : Text) (n : ℕ) (hn : n ≤ 2) : Free n (httpdSanitiseUrl url) := by
  rw [sanitiseUrl_sweeps]
  have h0 := pass_free 0 0 false url (.inl rfl)
  have h1 := pass_free 1 1 false (sweep 0 false [] 0 url) (.inl rfl)
  interval_cases n
  · exact pass_free 0 2 true _ (.inr (pass_free 0 1 false _ (.inr h0)))
  · exact pass_free 1 2 true _ (.inr h1)
  · exact pass_free 2 2 true _ (.inl rfl)

theorem sanitiseUrl_of_free (url : Text) (h : ∀ n ≤ 2, Free n url) : httpdSanitiseUrl url = url := by
  rw [sanitiseUrl_sweeps, sweep_of_free 0 _ _ _ url (h 0 (by decide)), List.nil_append,
    sweep_of_free 1 _ _ _ url (h 1 (by decide)), List.nil_append,
    sweep_of_free 2 _ _ _ url (h 2 (by decide)), List.nil_append]

/-! ## In the array -/

/-- `src` and `dst` are the places of `from` and `to`; each write is kept with the place
that is being read. -/
structure Scan where
  buf : Text
  src : ℕ
  dst : ℕ
  last : ℕ
  writes : List (ℕ × ℕ)

def scanStep (n : ℕ) (back : Bool) (s : Scan) : Scan :=
  if s.buf.getD s.src 0 = slash ∧ dots n <+: s.buf.drop (s.src+1) then
    { s with src := s.src+(n+1), dst := if back then s.last else s.dst }
  else
    { buf := s.buf.set s.dst (s.buf.getD s.src 0)
      src := s.src+1
      dst := s.dst+1
      last := if s.buf.getD s.src 0 = slash then s.dst else s.last
      writes := s.writes ++ [(s.dst, s.src)] }

theorem src_lt (s : Scan) (h : s.buf.getD s.src 0 ≠ 0) : s.src < s.buf.length := by
  by_contra hn
  exact h (by rw [List.getD_eq_getElem?_getD, List.getElem?_eq_none (by omega), Option.getD_none])

def scanLoop (n : ℕ) (back : Bool) (s : Scan) : Scan :=
  if h : s.buf.getD s.src 0 ≠ 0 then
    have := src_lt s h
    scanLoop n back (scanStep n back s)
  else s
termination_by s.buf.length-s.src
decreasing_by
  simp only [scanStep]
  split_ifs <;> simp only [List.length_set] <;> omega

/-- One pass from the start of the array; the NUL goes to `to`. -/
def scan (n : ℕ) (back : Bool) (buf : Text) (writes : List (ℕ × ℕ)) : Scan :=
  let s := scanLoop n back ⟨buf, 0, 0, 0, writes⟩
  { s with buf := s.buf.set s.dst 0, writes := s.writes ++ [(s.dst, s.src)] }

def sanitiseInPlace (buf : Text) : Scan :=
  let single := scan 0 false buf []
  let direct := scan 1 false single.buf single.writes
  scan 2 true direct.buf direct.writes

def Behind (writes : List (ℕ × ℕ)) : Prop := ∀ w ∈ writes, w.1 ≤ w.2

/-- Between two steps of a pass: `dest` stands in front of `to`, and from `from` on the
array holds what is left, its NUL and what follows. -/
structure Scanning (tail dest rest : Text) (s : Scan) : Prop where
  left : s.buf.drop s.src = rest ++ 0::tail
  done : s.buf.take s.dst = dest
  dst_le : s.dst ≤ s.src
  last_le : s.last ≤ s.dst
  behind : Behind s.writes

section
variable {tail dest rest : Text} {s : Scan} {c : UInt8}

theorem Scanning.length (h : Scanning tail dest rest s) :
    s.buf.length = s.src+(rest.length+tail.length+1) := by
  have hl := congrArg List.length h.left
  simp only [List.length_drop, List.length_append, List.length_cons] at hl
  omega

theorem Scanning.dst_eq (h : Scanning tail dest rest s) : dest.length = s.dst := by
  have hl := h.length
  have hd := h.dst_le
  rw [← h.done, List.length_take]
  omega

theorem Scanning.read (h : Scanning tail dest (c::rest) s) :
    s.buf.getD s.src 0 = c ∧ s.buf.drop (s.src+1) = rest ++ 0::tail := by
  constructor
  · rw [List.getD_eq_getElem?_getD, ← List.head?_drop, h.left]
    rfl
  · rw [← List.tail_drop, h.left]
    rfl

theorem Scanning.goes_on (h : Scanning tail dest (c::rest) s) (hz : 0 ∉ c::rest) :
    s.buf.getD s.src 0 ≠ 0 := by
  rw [h.read.1]
  exact fun he => hz (by simp [he])

theorem Scanning.test (h : Scanning tail dest (c::rest) s) (n : ℕ) :
    (s.buf.getD s.src 0 = slash ∧ dots n <+: s.buf.drop (s.src+1)) ↔ c = slash ∧ dots n <+: rest := by
  rw [h.read.1, h.read.2, prefix_stop _ _ _ _ (not_mem_dots 0 n (by decide) (by decide))]

theorem Scanning.skip (n : ℕ) (back : Bool) (h : Scanning tail dest (c::rest) s)
    (hp : c = slash ∧ dots n <+: rest) :
    Scanning tail (if back then dest.take s.last else dest) (rest.drop n) (scanStep n back s) ∧
      (scanStep n back s).last = s.last := by
  have hd := h.dst_le
  have hl := h.last_le
  have hn := dots_length_le n rest hp.2
  rw [scanStep, if_pos ((h.test n).mpr hp)]
  refine ⟨⟨?_, ?_, ?_, ?_, h.behind⟩, rfl⟩
  · simp only
    rw [show s.src+(n+1) = s.src+1+n by omega, ← List.drop_drop, h.read.2,
      List.drop_append_of_le_length hn]
  · cases back with
    | false => exact h.done
    | true => simp [← h.done, List.take_take, Nat.min_eq_left hl]
  · cases back <;> simp <;> omega
  · cases back <;> simp [hl]

theorem Scanning.write (n : ℕ) (back : Bool) (h : Scanning tail dest (c::rest) s)
    (hp : ¬ (c = slash ∧ dots n <+: rest)) :
    Scanning tail (dest ++ [c]) rest (scanStep n back s) ∧
      (scanStep n back s).last = if c = slash then dest.length else s.last := by
  have hd := h.dst_le
  have hl := h.last_le
  have hlen := h.length
  obtain ⟨hc, hr⟩ := h.read
  rw [scanStep, if_neg (fun ht => hp ((h.test n).mp ht)), hc]
  refine ⟨⟨?_, ?_, ?_, ?_, ?_⟩, ?_⟩
  · simp only
    rw [List.drop_set_of_lt (by omega), hr]
  · simp only
    rw [take_set_succ _ _ _ (by omega), h.done]
  · simp only
    omega
  · simp only
    split_ifs <;> omega
  · intro w hw
    rcases List.mem_append.mp hw with hw | hw
    · exact h.behind w hw
    · rw [List.mem_singleton.mp hw]
      exact hd
  · simp only [h.dst_eq]

theorem loop_scanning (n : ℕ) (back : Bool) (dest : Text) (last : ℕ) (rest : Text) (s : Scan)
    (hl : s.last = last) (hz : 0 ∉ rest) (h : Scanning tail dest rest s) :
    Scanning tail (sweep n back dest last rest) [] (scanLoop n back s) := by
  fun_induction sweep n back dest last rest generalizing s with
  | case1 dest last =>
    have hr : s.buf.getD s.src 0 = 0 := by
      rw [List.getD_eq_getElem?_getD, ← List.head?_drop, h.left]
      rfl
    rwa [scanLoop, dif_neg (not_not.mpr hr)]
  | case2 dest last c rest hp ih =>
    simp only [dite_eq_ite] at ih
    have hc := h.goes_on hz
    obtain ⟨hs, hls⟩ := h.skip n back hp
    rw [scanLoop, dif_pos hc]
    rw [hl] at hs hls
    exact ih _ hls (fun hm => hz (List.mem_cons_of_mem _ (List.mem_of_mem_drop hm))) hs
  | case3 dest last c rest hp ih =>
    simp only [dite_eq_ite] at ih
    have hc := h.goes_on hz
    obtain ⟨hs, hls⟩ := h.write n back hp
    rw [scanLoop, dif_pos hc]
    rw [hl] at hls
    exact ih _ hls (fun hm => hz (List.mem_cons_of_mem _ hm)) hs

end

theorem mem_sweep (n : ℕ) (back : Bool) (dest : Text) (last : ℕ) (url : Text) (c : UInt8)
    (h : c ∈ sweep n back dest last url) : c ∈ dest ∨ c ∈ url := by
  fun_induction sweep n back dest last url with
  | case1 dest last => exact .inl h
  | case2 dest last d rest hp ih =>
    simp only [dite_eq_ite] at ih
    rcases ih h with hd | hr
    · cases back with
      | false => exact .inl hd
      | true => exact .inl (List.mem_of_mem_take hd)
    · exact .inr (List.mem_cons_of_mem _ (List.mem_of_mem_drop hr))
  | case3 dest last d rest hp ih =>
    rcases ih h with hd | hr
    · simp only [List.mem_append, List.mem_singleton] at hd
      exact hd.imp_right fun he => by simp [he]
    · exact .inr (List.mem_cons_of_mem _ hr)

theorem scan_sweep (n : ℕ) (back : Bool) (url behind : Text) (writes : List (ℕ × ℕ)) (hz : 0 ∉ url)
    (hw : Behind writes) :
    ∃ tail, (scan n back (url ++ 0::behind) writes).buf = sweep n back [] 0 url ++ 0::tail ∧
      Behind (scan n back (url ++ 0::behind) writes).writes := by
  have h := loop_scanning n back [] 0 url ⟨url ++ 0::behind, 0, 0, 0, writes⟩ rfl hz
    ⟨rfl, rfl, Nat.le_refl _, Nat.le_refl _, hw⟩
  have hlen := h.length
  have hd := h.dst_le
  simp only [scan]
  constructor
  · constructor
    · rw [List.set_eq_take_append_cons_drop, if_pos (by omega), h.done]
    · intro w hm
      rcases List.mem_append.mp hm with hm | hm
      · exact h.behind w hm
      · rw [List.mem_singleton.mp hm]
        exact hd

/-- In its array the string is cleaned as if the passes had an array of their own. -/
theorem sanitiseInPlace_eq (url behind : Text) (hz : 0 ∉ url) :
    (∃ tail, (sanitiseInPlace (url ++ 0::behind)).buf = httpdSanitiseUrl url ++ 0::tail) ∧
      Behind (sanitiseInPlace (url ++ 0::behind)).writes := by
  have hm : ∀ n back s, 0 ∉ s → (0 : UInt8) ∉ sweep n back [] 0 s := fun n back s hs h =>
    (mem_sweep n back [] 0 s 0 h).elim (List.not_mem_nil) hs
  obtain ⟨t0, h0, hw0⟩ := scan_sweep 0 false url behind [] hz (by simp [Behind])
  have hz0 := hm 0 false url hz
  obtain ⟨t1, h1, hw1⟩ := scan_sweep 1 false _ t0 _ hz0 hw0
  have hz1 := hm 1 false _ hz0
  obtain ⟨t2, h2, hw2⟩ := scan_sweep 2 true _ t1 _ hz1 hw1
  simp only [sanitiseInPlace, h0, h1, h2, sanitiseUrl_sweeps]
  exact ⟨⟨t2, rfl⟩, hw2⟩

def sanitised (buf : Text) : Text := cString (sanitiseInPlace buf).buf

theorem mem_sanitiseUrl (url : Text) (c : UInt8) (h : c ∈ httpdSanitiseUrl url) : c ∈ url := by
  rw [sanitiseUrl_sweeps] at h
  have hm : ∀ n back s, c ∈ sweep n back [] 0 s → c ∈ s := fun n back s hs =>
    (mem_sweep n back [] 0 s c hs).resolve_left List.not_mem_nil
  exact hm 0 false _ (hm 1 false _ (hm 2 true _ h))

theorem sanitised_eq (url behind : Text) (hz : 0 ∉ url) :
    sanitised (url ++ 0::behind) = httpdSanitiseUrl url := by
  obtain ⟨⟨tail, ht⟩, -⟩ := sanitiseInPlace_eq url behind hz
  rw [sanitised, ht, cString_append _ _ fun h => hz (mem_sanitiseUrl url 0 h)]

theorem sanitise_clean (url behind : Text) (hz : 0 ∉ url) :
    ¬ [slash, slash] <:+: sanitised (url ++ 0::behind) ∧
      ¬ [slash, dot, slash] <:+: sanitised (url ++ 0::behind) ∧
      ¬ [slash, dot, dot, slash] <:+: sanitised (url ++ 0::behind) ∧
      (sanitised (url ++ 0::behind)).length ≤ url.length ∧
      (∀ w ∈ (sanitiseInPlace (url ++ 0::behind)).writes, w.1 ≤ w.2) ∧
      sanitised (sanitiseInPlace (url ++ 0::behind)).buf = sanitised (url ++ 0::behind) := by
  obtain ⟨⟨tail, ht⟩, hw⟩ := sanitiseInPlace_eq url behind hz
  have hf := sanitiseUrl_free url
  have hn : 0 ∉ httpdSanitiseUrl url := fun h => hz (mem_sanitiseUrl url 0 h)
  rw [sanitised_eq url behind hz]
  refine ⟨(free_iff 0 _).mp (hf 0 (by decide)), (free_iff 1 _).mp (hf 1 (by decide)),
    (free_iff 2 _).mp (hf 2 (by decide)), length_sanitiseUrl url, hw, ?_⟩
  rw [ht, sanitised_eq _ tail hn, sanitiseUrl_of_free _ hf]

theorem sanitise_clean_parent :
    sanitised [0x2f, 0x61, 0x2f, 0x2e, 0x2f, 0x2f, 0x2e, 0x2e, 0x2f, 0x62, 0] = [0x2f, 0x62] ∧
      ¬ [slash, dot, dot, slash] <:+:
        sanitised ([0x2f, 0x61, 0x2f, 0x2e, 0x2f, 0x2f, 0x2e, 0x2e, 0x2f, 0x62] ++ 0::[]) :=
  ⟨by decide +kernel, (sanitise_clean
    [0x2f, 0x61, 0x2f, 0x2e, 0x2f, 0x2f, 0x2e, 0x2e, 0x2f, 0x62] [] (by decide)).2.2.1⟩

end FasterConfig.HttpdSanitise
