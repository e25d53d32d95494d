import FasterConfig.ConfigFile

/-!
# What the lines of the file do

As long as every line fits into the array, the loop goes over the lines in
order and over a last line with a newline twice. Each field ends with what the
last line in which its key is found has set.
-/

set_option autoImplicit false

namespace FasterConfig.ConfigLines
open FasterConfig.Octets FasterConfig.Strings FasterConfig.Runs FasterConfig.Separators
open FasterConfig.ConfigFile
open FasterConfig.Cidr (isSpace)

def fileLines : Text → List Text
  | [] => []
  | c::file =>
    if c = newline then [c]::fileLines file
    else match fileLines file with
      | [] => [[c]]
      | l::ls => (c::l)::ls

def firstWord (line : Text) : Option Text := (words isSpace line).head?

def secondWord (line : Text) : Option Text := (words isSpace line)[1]?

def Seen (key line : Text) : Prop := ¬ Skipped line ∧ Matches key line

instance (key line : Text) : Decidable (Seen key line) := inferInstanceAs (Decidable (_ ∧ _))

def Written (key line : Text) : Prop := Seen key line ∧ (secondWord line).isSome

instance (key line : Text) : Decidable (Written key line) := inferInstanceAs (Decidable (_ ∧ _))

/-! ## One line -/

def effect (line : Text) (val : IntField → Int32) (s : Fields) : Fields where
  ints f := if Seen f.key line then readIntFromConfigLine line (val f) else s.ints f
  strs f := if Written f.key line then (secondWord line).getD [] else s.strs f

theorem scanWord_none (s : Text) (h : scanWord s = none) : words isSpace s = [] := by
  rw [scanWord] at h
  split_ifs at h with he
  exact words_blank isSpace s he

theorem scanWord_some (s w rest : Text) (h : scanWord s = some (w, rest)) :
    words isSpace s = w::words isSpace rest ∧ w.length ≤ s.length ∧ rest.length ≤ s.length := by
  rw [scanWord] at h
  split_ifs at h with he
  cases h
  have hd := (List.dropWhile_suffix isSpace (l := s)).length_le
  refine ⟨words_next isSpace s he, ?_, ?_⟩
  · exact (List.takeWhile_prefix _).length_le.trans hd
  · exact (List.dropWhile_suffix _).length_le.trans hd

theorem readStr_eq (line val : Text) (h : line.length < 64) :
    readStrFromConfigLine line val = some ((secondWord line).getD val) := by
  rw [readStrFromConfigLine, secondWord]
  cases h1 : scanWord line with
  | none =>
    rw [scanWord_none line h1]
    rfl
  | some r =>
    obtain ⟨w, rest⟩ := r
    obtain ⟨hw, -, hrest⟩ := scanWord_some line w rest h1
    rw [hw, Option.bind_some, List.getElem?_cons_succ]
    cases h2 : scanWord rest with
    | none =>
      rw [scanWord_none rest h2]
      rfl
    | some r =>
      obtain ⟨v, more⟩ := r
      obtain ⟨hv, hlen, -⟩ := scanWord_some rest v more h2
      rw [hv, List.getElem?_cons_zero]
      exact if_pos (by simp only [fieldSize]; omega)

theorem setInt_eq (f : IntField) (line : Text) (val : IntField → Int32) (s : Fields) :
    setInt f line val s = some ⟨Function.update s.ints f
      (if Matches f.key line then readIntFromConfigLine line (val f) else s.ints f), s.strs⟩ := by
  rw [setInt]
  split_ifs with h
  · rfl
  · rw [Function.update_eq_self]

theorem setStr_eq (f : StrField) (line : Text) (h : line.length < 64) (s : Fields) :
    setStr f line s = some ⟨s.ints, Function.update s.strs f
      (if Matches f.key line then (secondWord line).getD (s.strs f) else s.strs f)⟩ := by
  rw [setStr]
  split_ifs with hm
  · rw [readStr_eq line _ h]
    rfl
  · rw [Function.update_eq_self]

theorem lineStep_eq (line : Text) (h : line.length < 64) (val : IntField → Int32) (s : Fields) :
    lineStep line val s = some (effect line val s) := by
  rw [lineStep]
  by_cases hs : Skipped line
  · rw [if_pos hs]
    simp only [effect, Seen, Written, hs, not_true_eq_false, false_and, if_false]
  · rw [if_neg hs]
    simp only [setInt_eq, setStr_eq _ line h, Option.bind_eq_bind, Option.bind_some]
    congr 1
    simp only [effect, Seen, Written, hs, not_false_eq_true, true_and, Fields.mk.injEq]
    constructor
    · ext f
      cases f <;> simp [Function.update]
    · funext f
      cases hw : secondWord line <;> cases f <;> simp [Function.update]

/-! ## The lines -/

theorem fileLines_nil (file : Text) (h : fileLines file = []) : file = [] := by
  cases file with
  | nil => rfl
  | cons c file =>
    rw [fileLines] at h
    split_ifs at h
    split at h <;> cases h

theorem flatten_fileLines (file : Text) : (fileLines file).flatten = file := by
  induction file with
  | nil => rfl
  | cons c file ih =>
    rw [fileLines]
    split_ifs
    · rw [List.flatten_cons, ih, List.singleton_append]
    · cases h : fileLines file with
      | nil => rw [fileLines_nil file h]; rfl
      | cons l ls =>
        rw [h] at ih
        rw [← ih]
        rfl

theorem line_ne_nil (file l : Text) (h : l ∈ fileLines file) : l ≠ [] := by
  induction file generalizing l with
  | nil => cases h
  | cons c file ih =>
    rw [fileLines] at h
    split_ifs at h
    · rcases List.mem_cons.mp h with rfl | h
      · exact List.cons_ne_nil _ _
      · exact ih l h
    · cases hf : fileLines file with
      | nil =>
        rw [hf] at h
        rw [List.mem_singleton.mp h]
        exact List.cons_ne_nil _ _
      | cons k ks =>
        rw [hf] at ih h
        rcases List.mem_cons.mp h with rfl | h
        · exact List.cons_ne_nil _ _
        · exact ih l (List.mem_cons_of_mem k h)

theorem getLoop_line (n : ℕ) (fp l : Text) (ls : List Text) (h : fileLines fp = l::ls) :
    (getLoop n fp).line = l.take n ∧
      (l.length < n → if l.getLast? = some newline
        then (getLoop n fp).feof = false ∧ fileLines (getLoop n fp).rest = ls
        else (getLoop n fp).feof = true ∧ ls = []) := by
  induction n generalizing fp l ls with
  | zero => exact ⟨rfl, fun h => absurd h (Nat.not_lt_zero _)⟩
  | succ n ih =>
    cases fp with
    | nil => cases h
    | cons c fp =>
      rw [fileLines] at h
      rw [getLoop]
      by_cases hc : c = newline
      · rw [if_pos hc] at h ⊢
        obtain ⟨rfl, rfl⟩ := List.cons.inj h
        exact ⟨by simp, fun _ => by simp [hc]⟩
      · rw [if_neg hc] at h ⊢
        cases hf : fileLines fp with
        | nil =>
          rw [hf] at h
          cases h
          rw [fileLines_nil fp hf]
          cases n with
          | zero => exact ⟨rfl, fun h => absurd h (Nat.lt_irrefl _)⟩
          | succ n => exact ⟨rfl, fun _ => by simp [hc, getLoop]⟩
        | cons k ks =>
          rw [hf] at h
          obtain ⟨rfl, rfl⟩ := List.cons.inj h
          obtain ⟨hline, hrest⟩ := ih fp k ks hf
          have hk : k ≠ [] := line_ne_nil fp k (by simp [hf])
          rw [List.getLast?_cons_of_ne_nil hk]
          exact ⟨by simp [hline], fun hlt => hrest (Nat.lt_of_succ_lt_succ hlt)⟩

/-! ## The run -/

/-- The lines as the array holds them in the passes of the loop. -/
def passes : List Text → List Text
  | [] => []
  | [l] => if l.getLast? = some newline then [l, l] else [l]
  | l::ls => l::passes ls

theorem passes_cons (l m : Text) (ms : List Text) : passes (l::m::ms) = l::passes (m::ms) := rfl

def run : List Text → (ℕ → IntField → Int32) → Fields → Fields
  | [], _, s => s
  | l::ls, val, s => run ls (fun i => val (i+1)) (effect l (val 0) s)

theorem loop_end (val : ℕ → IntField → Int32) (buf : Text) (s : Fields) :
    readConfigLoop val [] buf s = lineStep (cString buf) (val 0) s := by
  have hgot : fgets fgetsLimit [] = ⟨[], [], true⟩ := rfl
  rw [readConfigLoop, hgot]
  simp only [filled, if_true]
  cases lineStep (cString buf) (val 0) s <;> rfl

theorem loop_long (val : ℕ → IntField → Int32) (fp l : Text) (ls : List Text) (h : fileLines fp = l::ls)
    (hl : 64 ≤ l.length) (buf : Text) (s : Fields) : readConfigLoop val fp buf s = none := by
  have hline := (getLoop_line 1023 fp l ls h).1
  have hlen : 64 ≤ (fgets fgetsLimit fp).line.length := by
    rw [fgets, fgetsLimit, hline, List.length_take]
    omega
  rw [readConfigLoop, filled, if_neg, if_neg]
  · simp only [bufSize]
    omega
  · intro he
    rw [he] at hlen
    exact absurd hlen (by decide)

theorem loop_line (val : ℕ → IntField → Int32) (fp l : Text) (ls : List Text) (h : fileLines fp = l::ls)
    (hl : l.length < 64) (h0 : 0 ∉ l) (buf : Text) (s : Fields) :
    (l.getLast? ≠ some newline ∧ ls = [] ∧
      readConfigLoop val fp buf s = some (effect l (val 0) s)) ∨
    (l.getLast? = some newline ∧ ∃ rest buf', fileLines rest = ls ∧ cString buf' = l ∧
      readConfigLoop val fp buf s =
        readConfigLoop (fun i => val (i+1)) rest buf' (effect l (val 0) s)) := by
  obtain ⟨hline, hrest⟩ := getLoop_line 1023 fp l ls h
  rw [List.take_of_length_le (by omega)] at hline
  have hrest := hrest (by omega)
  have hne : l ≠ [] := line_ne_nil fp l (by simp [h])
  have hfill : filled buf l = some (memcpy buf 0 (l ++ [0])) := by
    rw [filled, if_neg hne, if_pos (by simp only [bufSize]; omega)]
  have hstring : cString (memcpy buf 0 (l ++ [0])) = l := by
    rw [memcpy, List.take_zero, List.nil_append, List.append_assoc]
    exact cString_append l _ h0
  have hgot : (fgets fgetsLimit fp).line = l := hline
  rw [readConfigLoop]
  simp only [hgot, hfill, hstring, lineStep_eq l hl]
  by_cases hn : l.getLast? = some newline
  · rw [if_pos hn] at hrest
    exact .inr ⟨hn, _, _, hrest.2, hstring, dif_pos hrest.1⟩
  · rw [if_neg hn] at hrest
    exact .inl ⟨hn, hrest.2, dif_neg (by simp [fgets, fgetsLimit, hrest.1])⟩

theorem loop_run (val : ℕ → IntField → Int32) (fp l : Text) (ls : List Text) (h : fileLines fp = l::ls)
    (hl : ∀ k ∈ l::ls, k.length < 64 ∧ 0 ∉ k) (buf : Text) (s : Fields) :
    readConfigLoop val fp buf s = some (run (passes (l::ls)) val s) := by
  induction ls generalizing l val fp buf s with
  | nil =>
    obtain ⟨hlen, h0⟩ := hl l (by simp)
    rcases loop_line val fp l [] h hlen h0 buf s with ⟨hn, -, he⟩ | ⟨hn, rest, buf', hr, hb, he⟩
    · rw [he, passes, if_neg hn, run, run]
    · rw [he, passes, if_pos hn, fileLines_nil rest hr, loop_end, hb, lineStep_eq l hlen, run, run,
        run]
  | cons m ms ih =>
    obtain ⟨hlen, h0⟩ := hl l (by simp)
    rcases loop_line val fp l (m::ms) h hlen h0 buf s with ⟨-, hm, -⟩ | ⟨-, rest, buf', hr, -, he⟩
    · cases hm
    · rw [he, ih _ rest m hr fun k hk => hl k (List.mem_cons_of_mem l hk), passes_cons, run]

theorem loop_overruns (val : ℕ → IntField → Int32) (fp : Text) (h0 : ∀ k ∈ fileLines fp, 0 ∉ k)
    (h : ∃ k ∈ fileLines fp, 64 ≤ k.length) (buf : Text) (s : Fields) :
    readConfigLoop val fp buf s = none := by
  generalize hls : fileLines fp = ls at h0 h
  induction ls generalizing fp val buf s with
  | nil => simp at h
  | cons l ls ih =>
    by_cases hl : l.length < 64
    · have hlong : ∃ k ∈ ls, 64 ≤ k.length := by
        obtain ⟨k, hk, hlen⟩ := h
        rcases List.mem_cons.mp hk with rfl | hk
        · omega
        · exact ⟨k, hk, hlen⟩
      rcases loop_line val fp l ls hls hl (h0 l (by simp)) buf s with
        ⟨-, rfl, -⟩ | ⟨-, rest, buf', hr, -, he⟩
      · simp at hlong
      · rw [he]
        exact ih _ rest _ _ hr (fun k hk => h0 k (List.mem_cons_of_mem l hk)) hlong
    · exact loop_long val fp l ls hls (by omega) buf s

/-! ## What a field ends with -/

theorem filter_passes (P : Text → Bool) (ls : List Text) :
    ((passes ls).filter P).getLast? = (ls.filter P).getLast? := by
  induction ls with
  | nil => rfl
  | cons l ls ih =>
    cases ls with
    | nil =>
      rw [passes]
      split_ifs
      · by_cases hp : P l = true <;> simp [hp]
      · rfl
    | cons m ms =>
      rw [passes_cons, List.filter_cons, List.filter_cons]
      by_cases hp : P l = true
      · rw [if_pos hp, if_pos hp, List.getLast?_cons, List.getLast?_cons, ih]
      · rw [if_neg hp, if_neg hp, ih]

theorem run_strs (f : StrField) (ls : List Text) (val : ℕ → IntField → Int32) (s : Fields) :
    (run ls val s).strs f =
      ls.foldl (fun v l => if Written f.key l then (secondWord l).getD [] else v) (s.strs f) := by
  induction ls generalizing val s with
  | nil => rfl
  | cons l ls ih => rw [run, ih, List.foldl_cons, effect]

theorem strs_last (f : StrField) (ls : List Text) (val : ℕ → IntField → Int32) (s : Fields) :
    (run (passes ls) val s).strs f =
      (((ls.filter (Written f.key)).getLast?.map fun l => (secondWord l).getD []).getD (s.strs f)) := by
  have hlast := foldl_last (fun l => decide (Written f.key l)) (fun l => (secondWord l).getD [])
    (passes ls) (s.strs f)
  rw [filter_passes] at hlast
  rw [run_strs, ← hlast]
  simp only [decide_eq_true_eq]

theorem ints_last (f : IntField) (ls : List Text) (val : ℕ → IntField → Int32) (s : Fields) :
    ∃ i, (run ls val s).ints f =
      ((ls.filter (Seen f.key)).getLast?.map fun l => readIntFromConfigLine l (val i f)).getD
        (s.ints f) := by
  induction ls generalizing val s with
  | nil => exact ⟨0, rfl⟩
  | cons l ls ih =>
    obtain ⟨i, hi⟩ := ih (fun j => val (j+1)) (effect l (val 0) s)
    rw [run, hi]
    by_cases hl : Seen f.key l
    · rw [List.filter_cons_of_pos (by simpa using hl), List.getLast?_cons]
      cases hlast : (ls.filter (Seen f.key)).getLast? with
      | none => exact ⟨0, by simp [effect, hl]⟩
      | some m => exact ⟨i+1, rfl⟩
    · rw [List.filter_cons_of_neg (by simpa using hl)]
      exact ⟨i+1, by simp only [effect, if_neg hl]⟩

end FasterConfig.ConfigLines
