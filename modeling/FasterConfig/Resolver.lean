import FasterConfig.LinkedChain
import FasterConfig.Strings
import Mathlib.Data.List.Range

/-!
# Records of the hosts file

Every line with a blank in it becomes a record at the end of a linked list:
what stands before its first blank is the address, and what stands behind its
last one the name. An address is found at its first record. Deleting the list
frees every record once, and leaves its head as it was.
-/

set_option autoImplicit false

namespace FasterConfig.Resolver
open FasterConfig.Strings FasterConfig.LinkedChain

def newline : UInt8 := 0x0a
def blank : UInt8 := 0x20

structure Record where
  ipAddress : Text
  domainName : Text
  next : Option ℕ

structure State where
  record : ℕ → Record
  brk : ℕ
  recordList : Option ℕ

def State.next (s : State) (i : ℕ) : Option ℕ := (s.record i).next

def add (fuel : ℕ) (s : State) (newone : ℕ) : Option State :=
  match s.recordList with
  | none => some { s with recordList := some newone }
  | some _ => do
    let (last, _) ← seek s.next (fun _ => false) fuel none s.recordList
    return last.elim s fun last =>
      { s with record := Function.update s.record last { s.record last with next := some newone } }

def store (fuel : ℕ) (s : State) (line : Text) : Option State :=
  match strchr blank line, strrchr blank line with
  | some (ipAddress, _), some (_, domainName) =>
    let record := Function.update s.record s.brk ⟨ipAddress, domainName, none⟩
    add fuel { s with record := record, brk := s.brk+1 } s.brk
  | _, _ => some s

/-- The loop over `getline`; a file that ends in a newline has one more line, which is empty. -/
def initLoop (fuel : ℕ) (s : State) (file : Text) : Option State :=
  match h : strchr newline file with
  | none => store fuel s file
  | some (line, rest) =>
    have : rest.length < file.length := by
      have hl := length_strchr newline file (line, rest) h
      simp only at hl
      omega
    (store fuel s line).bind fun s => initLoop fuel s rest
termination_by file.length

def init (fuel : ℕ) (record : ℕ → Record) (brk : ℕ) (file : Text) : Option State :=
  initLoop fuel ⟨record, brk, none⟩ file

/-- The empty string where no record has the address. -/
def find (fuel : ℕ) (s : State) (ipAddress : Text) : Option Text :=
  (seek s.next (fun i => (s.record i).ipAddress = ipAddress) fuel none s.recordList).map fun r =>
    r.2.elim [] fun i => (s.record i).domainName

def deleteList (fuel : ℕ) (s : State) : Option (List ℕ) := follow s.next fuel s.recordList

/-! ## The list -/

/-- Address and name, the latter behind the last blank. -/
def readEntry (line : Text) : Option (Text × Text) :=
  match strchr blank line, strrchr blank line with
  | some (ipAddress, _), some (_, domainName) => some (ipAddress, domainName)
  | _, _ => none

def readLines (file : Text) : List Text :=
  match h : strchr newline file with
  | none => [file]
  | some (line, rest) =>
    have : rest.length < file.length := by
      have hl := length_strchr newline file (line, rest) h
      simp only at hl
      omega
    line::readLines rest
termination_by file.length

def entries (file : Text) : List (Text × Text) := (readLines file).filterMap readEntry

def State.entry (s : State) (i : ℕ) : Text × Text := ((s.record i).ipAddress, (s.record i).domainName)

/-- The records made from `start` on are the list, in the order they were made in. -/
structure Lists (start : ℕ) (s : State) (es : List (Text × Text)) : Prop where
  brk : s.brk = start+es.length
  links : Chain s.next s.recordList (List.range' start es.length)
  entries : (List.range' start es.length).map s.entry = es

theorem add_empty (fuel : ℕ) (s : State) (newone : ℕ) (h : s.recordList = none) :
    add fuel s newone = some { s with recordList := some newone } := by
  rw [add, h]

theorem add_last (fuel : ℕ) (s : State) (newone : ℕ) (is : List ℕ) (last : ℕ)
    (h : Chain s.next s.recordList (is ++ [last])) (hf : is.length+1 < fuel) :
    add fuel s newone = some { s with
      record := Function.update s.record last { s.record last with next := some newone } } := by
  obtain ⟨i, hi⟩ : ∃ i, s.recordList = some i := by
    cases is with
    | nil => exact ⟨last, h.1⟩
    | cons j is => exact ⟨j, h.1⟩
  have hseek : seek s.next (fun _ => false) fuel none s.recordList = some (some last, none) := by
    rw [seek_none h (fun _ _ => rfl) fuel (by rw [List.length_append]; exact hf) none,
      List.getLast?_concat]
    rfl
  rw [add]
  simp only [hi] at hseek ⊢
  rw [hseek]
  rfl

theorem next_linked (t : State) (last next : ℕ) :
    State.next { t with record := Function.update t.record last { t.record last with next := some next } } =
      Function.update t.next last (some next) := by
  funext i
  by_cases hi : i = last
  · simp [State.next, hi]
  · simp [State.next, hi]

theorem entry_linked (t : State) (last next i : ℕ) :
    State.entry { t with record := Function.update t.record last { t.record last with next := some next } } i =
      t.entry i := by
  by_cases hi : i = last
  · simp [State.entry, hi]
  · simp [State.entry, hi]

theorem add_lists (fuel start : ℕ) (s : State) (es : List (Text × Text)) (e : Text × Text)
    (h : Lists start s es) (hf : es.length+1 < fuel) :
    ∃ s', add fuel { s with record := Function.update s.record s.brk ⟨e.1, e.2, none⟩, brk := s.brk+1 }
      s.brk = some s' ∧ Lists start s' (es ++ [e]) := by
  generalize hmade : State.mk (Function.update s.record s.brk ⟨e.1, e.2, none⟩) (s.brk+1) s.recordList = t
  have htl : t.recordList = s.recordList := by rw [← hmade]
  have htb : t.brk = s.brk+1 := by rw [← hmade]
  have hbelow : ∀ i ∈ List.range' start es.length, i < s.brk := by
    intro i hi
    have hi := (List.mem_range'_1.mp hi).2
    rwa [h.brk]
  have hold : ∀ i ∈ List.range' start es.length, t.record i = s.record i := by
    intro i hi
    rw [← hmade]
    exact Function.update_of_ne (Nat.ne_of_lt (hbelow i hi)) _ _
  have hnew : t.record s.brk = ⟨e.1, e.2, none⟩ := by
    rw [← hmade]
    exact Function.update_self ..
  have hchain : Chain t.next t.recordList (List.range' start es.length) := by
    rw [htl]
    exact h.links.congr fun i hi => congrArg Record.next (hold i hi)
  have hnone : t.next s.brk = none := congrArg Record.next hnew
  have hplaces : List.range' start (es ++ [e]).length = List.range' start es.length ++ [s.brk] := by
    rw [List.length_append, List.length_singleton, List.range'_concat, Nat.one_mul, h.brk]
  have hentries : ∀ t' : State, (∀ i, t'.entry i = t.entry i) →
      (List.range' start (es ++ [e]).length).map t'.entry = es ++ [e] := by
    intro t' ht
    rw [hplaces, List.map_append, List.map_singleton, ht s.brk]
    congr 1
    · rw [List.map_congr_left fun i hi => (ht i).trans (show t.entry i = s.entry i by
        rw [State.entry, State.entry, hold i hi]), h.entries]
    · rw [State.entry, hnew]
  rcases List.eq_nil_or_concat' es with rfl | ⟨front, x, rfl⟩
  · have hempty : t.recordList = none := hchain
    refine ⟨_, add_empty fuel t s.brk hempty, ?_, ?_, hentries _ fun _ => rfl⟩
    · rw [htb, h.brk]
      rfl
    · rw [hplaces]
      exact ⟨rfl, hnone⟩
  · generalize hlast : start+front.length = last
    have hfront : List.range' start (front ++ [x]).length = List.range' start front.length ++ [last] := by
      rw [List.length_append, List.length_singleton, List.range'_concat, Nat.one_mul, hlast]
    rw [hfront] at hchain
    rw [List.length_append, List.length_singleton] at hf
    refine ⟨_, add_last fuel t s.brk _ last hchain (by rw [List.length_range']; omega), ?_, ?_,
      hentries _ fun i => ?_⟩
    · rw [htb, h.brk]
      simp only [List.length_append, List.length_singleton]
      omega
    · have hnodup : (List.range' start (front ++ [x] ++ [e]).length).Nodup := List.nodup_range'
      rw [hplaces, hfront, List.append_assoc] at hnodup ⊢
      rw [next_linked]
      exact hchain.link hnodup hnone
    · exact entry_linked t last s.brk i

theorem store_lists (fuel start : ℕ) (s : State) (es : List (Text × Text)) (line : Text)
    (h : Lists start s es) (hf : es.length+1 < fuel) :
    ∃ s', store fuel s line = some s' ∧ Lists start s' (es ++ (readEntry line).toList) := by
  have hsame : Lists start s (es ++ (none : Option (Text × Text)).toList) := by
    rw [Option.toList_none, List.append_nil]
    exact h
  rw [store, readEntry]
  cases strchr blank line with
  | none => exact ⟨s, rfl, hsame⟩
  | some first =>
    cases strrchr blank line with
    | none => exact ⟨s, rfl, hsame⟩
    | some last => exact add_lists fuel start s es (first.1, last.2) h hf

theorem length_readLines (file : Text) : (readLines file).length ≤ file.length+1 := by
  fun_induction readLines file with
  | case1 file h => exact Nat.le_add_left 1 _
  | case2 file line rest h hlt ih =>
    rw [List.length_cons]
    omega

theorem length_entry (line : Text) (es : List (Text × Text)) :
    (es ++ (readEntry line).toList).length ≤ es.length+1 := by
  rw [List.length_append]
  cases readEntry line <;> simp

theorem initLoop_lists (fuel start : ℕ) (s : State) (es : List (Text × Text)) (file : Text)
    (h : Lists start s es) (hf : es.length+(readLines file).length < fuel) :
    ∃ s', initLoop fuel s file = some s' ∧ Lists start s' (es ++ entries file) := by
  rw [entries]
  fun_induction readLines file generalizing s es with
  | case1 file hline =>
    obtain ⟨s', hs, hl⟩ := store_lists fuel start s es file h hf
    refine ⟨s', ?_, ?_⟩
    · rw [initLoop]
      split
      · exact hs
      · rename_i hsome
        rw [hline] at hsome
        cases hsome
    · cases he : readEntry file with
      | none => simpa [he] using hl
      | some e => simpa [he] using hl
  | case2 file line rest hline hlt ih =>
    rw [List.length_cons] at hf
    obtain ⟨t, ht, hlt'⟩ := store_lists fuel start s es line h (by omega)
    obtain ⟨s', hs, hl⟩ := ih t _ hlt' (by have := length_entry line es; omega)
    refine ⟨s', ?_, ?_⟩
    · rw [initLoop]
      split
      · rename_i hnone
        rw [hline] at hnone
        cases hnone
      · rename_i line' rest' hsome
        rw [hline] at hsome
        cases hsome
        rw [ht]
        exact hs
    · cases he : readEntry line with
      | none => simpa [he] using hl
      | some e => simpa [he] using hl

/-! ## Lookup and release -/

theorem find_lists (fuel start : ℕ) (s : State) (es : List (Text × Text)) (h : Lists start s es)
    (hf : es.length < fuel) (ipAddress : Text) :
    find fuel s ipAddress = some (((es.find? fun e => e.1 = ipAddress).map Prod.snd).getD []) := by
  have hlinks := h.links
  have hentries := h.entries
  have hlen : (List.range' start es.length).length < fuel := by rwa [List.length_range']
  generalize List.range' start es.length = is at hlinks hentries hlen
  rw [find, ← hentries, List.find?_map]
  cases hfind : is.find? ((fun e => decide (e.1 = ipAddress)) ∘ s.entry) with
  | none =>
    have hno : ∀ i ∈ is, decide ((s.record i).ipAddress = ipAddress) = false := fun i hi =>
      eq_false_of_ne_true (List.find?_eq_none.mp hfind i hi)
    rw [seek_none hlinks hno fuel hlen none]
    rfl
  | some i =>
    obtain ⟨hi, front, behind, rfl, hfront⟩ := List.find?_eq_some_iff_append.mp hfind
    have hno : ∀ j ∈ front, decide ((s.record j).ipAddress = ipAddress) = false := fun j hj =>
      (Bool.not_eq_true' _).mp (hfront j hj)
    rw [List.length_append] at hlen
    rw [seek_some hlinks hno hi fuel (by omega) none]
    rfl

/-- An entry as it is written into a file: the address and a blank, and the name behind whatever
ends with a blank. -/
structure Entry where
  ipAddress : Text
  middle : Text
  domainName : Text
  address : ∀ c ∈ ipAddress, c ≠ blank ∧ c ≠ newline
  unbroken : newline ∉ middle
  blank_last : ∀ c ∈ middle.getLast?, c = blank
  name : ∀ c ∈ domainName, c ≠ blank ∧ c ≠ newline

def Entry.line (e : Entry) : Text := e.ipAddress ++ blank::(e.middle ++ e.domainName)

def Entry.pair (e : Entry) : Text × Text := (e.ipAddress, e.domainName)

theorem line_last (e : Entry) : ∃ before, e.line = before ++ blank::e.domainName := by
  obtain hm | ⟨front, c, hm⟩ := List.eq_nil_or_concat' e.middle
  · exact ⟨e.ipAddress, by rw [Entry.line, hm, List.nil_append]⟩
  · have hc : c = blank := e.blank_last c (by rw [hm, List.getLast?_concat]; rfl)
    refine ⟨e.ipAddress ++ blank::front, ?_⟩
    rw [Entry.line, hm, hc]
    simp only [List.append_assoc, List.cons_append, List.nil_append]

theorem entry_line (e : Entry) : readEntry e.line = some e.pair := by
  have hfirst : strchr blank e.line = some (e.ipAddress, e.middle ++ e.domainName) :=
    strchr_append blank _ _ fun hm => (e.address blank hm).1 rfl
  obtain ⟨before, hlast⟩ := line_last e
  have hname : strrchr blank e.line = some (before, e.domainName) := by
    rw [hlast]
    exact strrchr_append blank _ _ fun hm => (e.name blank hm).1 rfl
  rw [readEntry, hfirst, hname]
  rfl

theorem newline_not_mem_line (e : Entry) : newline ∉ e.line := by
  have hb : newline ≠ blank := by decide
  rw [Entry.line, List.mem_append, List.mem_cons, List.mem_append]
  rintro (h | h | h | h)
  · exact (e.address newline h).2 rfl
  · exact hb h
  · exact e.unbroken h
  · exact (e.name newline h).2 rfl

def hosts (es : List Entry) (ended : Bool) : Text :=
  [newline].intercalate (es.map Entry.line) ++ if ended then [newline] else []

theorem readLines_line (line rest : Text) (h : newline ∉ line) :
    readLines (line ++ newline::rest) = line::readLines rest := by
  have hs := strchr_append newline line rest h
  rw [readLines]
  split
  · rename_i hnone
    rw [hs] at hnone
    cases hnone
  · rename_i line' rest' hsome
    rw [hs] at hsome
    cases hsome
    rfl

theorem readLines_last (line : Text) (h : newline ∉ line) : readLines line = [line] := by
  have hs := strchr_none newline line h
  rw [readLines]
  split
  · rfl
  · rename_i hsome
    rw [hs] at hsome
    cases hsome

theorem entry_nil : readEntry [] = none := rfl

theorem entries_hosts (es : List Entry) (ended : Bool) : entries (hosts es ended) = es.map Entry.pair := by
  have hblank : entries [] = [] := by
    rw [entries, readLines_last [] List.not_mem_nil]
    rfl
  rw [hosts]
  induction es with
  | nil =>
    cases ended with
    | false => exact hblank
    | true =>
      have hl := readLines_line [] [] List.not_mem_nil
      have hn := readLines_last [] List.not_mem_nil
      rw [entries]
      change (readLines ([] ++ newline::[])).filterMap readEntry = []
      rw [hl, hn]
      rfl
  | cons e es ih =>
    have hline := newline_not_mem_line e
    cases es with
    | nil =>
      rw [List.map_singleton, List.intercalate_singleton, entries]
      cases ended with
      | false =>
        simp only [Bool.false_eq_true, if_false, List.append_nil, readLines_last e.line hline]
        simp [entry_line]
      | true =>
        rw [if_pos rfl, readLines_line e.line [] hline, readLines_last [] List.not_mem_nil]
        simp [entry_line, entry_nil]
    | cons f fs =>
      rw [List.map_cons, List.map_cons, List.intercalate_cons_cons, List.append_assoc, List.append_assoc,
        List.singleton_append, entries, readLines_line e.line _ hline,
        List.filterMap_cons_some (entry_line e), List.map_cons, List.map_cons]
      rw [entries] at ih
      exact congrArg (e.pair::·) ih

theorem init_entries (file : Text) (record : ℕ → Record) (brk fuel : ℕ) (hf : file.length+1 < fuel) :
    ∃ s, init fuel record brk file = some s ∧
      (∀ ipAddress, find fuel s ipAddress =
        some ((((entries file).find? fun e => e.1 = ipAddress).map Prod.snd).getD [])) ∧
      deleteList fuel s = some (List.range' brk (entries file).length) := by
  have hlines := length_readLines file
  have hcount : (entries file).length ≤ (readLines file).length := List.length_filterMap_le _ _
  have hempty : Lists brk ⟨record, brk, none⟩ [] := ⟨rfl, rfl, rfl⟩
  obtain ⟨s, hrun, hs⟩ := initLoop_lists fuel brk _ [] file hempty
    (by rw [List.length_nil, Nat.zero_add]; omega)
  rw [List.nil_append] at hs
  refine ⟨s, hrun, find_lists fuel brk s _ hs (by omega), ?_⟩
  exact follow_chain hs.links fuel (by rw [List.length_range']; omega)

/-- A hosts file is read into its entries, an address is found at the first of them that has it,
and in the end every record is deleted once. -/
theorem hosts_read (es : List Entry) (ended : Bool) (record : ℕ → Record) (brk extra : ℕ) :
    let fuel := (hosts es ended).length+2+extra
    ∃ s, init fuel record brk (hosts es ended) = some s ∧
      (∀ ipAddress, find fuel s ipAddress =
        some (((es.find? fun e => e.ipAddress = ipAddress).map Entry.domainName).getD [])) ∧
      deleteList fuel s = some (List.range' brk es.length) := by
  intro fuel
  obtain ⟨s, hrun, hfind, hdelete⟩ := init_entries (hosts es ended) record brk fuel
    (Nat.lt_of_lt_of_le (Nat.lt_succ_self _) (Nat.le_add_right _ _))
  rw [entries_hosts, List.length_map] at hdelete
  refine ⟨s, hrun, fun ipAddress => ?_, hdelete⟩
  rw [hfind, entries_hosts, List.find?_map, Option.map_map]
  rfl

local instance (priority := 10000) decidableText (p : UInt8 → Prop) [DecidablePred p] (s : Text) :
    Decidable (∀ c ∈ s, p c) := List.decidableBAll p s

local instance (priority := 10000) decidableLast (p : UInt8 → Prop) [DecidablePred p]
    (s : Option UInt8) : Decidable (∀ c ∈ s, p c) := Option.decidableForallMem s

def portalEntry : Entry where
  ipAddress := ascii "192.168.100.1"
  middle := ascii "  "
  domainName := ascii "portal"
  address := by decide
  unbroken := by decide
  blank_last := by decide
  name := by decide

def aliasEntry : Entry where
  ipAddress := ascii "192.168.100.2"
  middle := ascii "printer "
  domainName := ascii "printer.lan"
  address := by decide
  unbroken := by decide
  blank_last := by decide
  name := by decide

theorem aliases_found :
    let file := ascii "192.168.100.1   portal\n192.168.100.2 printer printer.lan\n"
    ∃ s, init (file.length+2) (fun _ => ⟨[], [], none⟩) 0 file = some s ∧
      find (file.length+2) s (ascii "192.168.100.2") = some (ascii "printer.lan") ∧
      find (file.length+2) s (ascii "192.168.100.3") = some [] ∧
      deleteList (file.length+2) s = some [0, 1] := by
  intro file
  have hfile : hosts [portalEntry, aliasEntry] true = file := by decide
  obtain ⟨s, hinit, hfind, hdelete⟩ :=
    hosts_read [portalEntry, aliasEntry] true (fun _ => ⟨[], [], none⟩) 0 0
  rw [hfile] at hinit hfind hdelete
  exact ⟨s, hinit, hfind _, hfind _, hdelete⟩

end FasterConfig.Resolver
