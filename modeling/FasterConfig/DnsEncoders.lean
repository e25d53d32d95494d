import FasterConfig.DnsEcho
import FasterConfig.DnsResponse
import FasterConfig.DnsRoundTrip

/-!
# Three encoders for names

Server and response look for the next dot with `find`, whose result goes
through an `int`, and write the last label behind the loop; the client cuts
the text with `strtok`. They write the same octets where every label is there.
-/

set_option autoImplicit false

namespace FasterConfig.DnsEncoders
open FasterConfig.Octets FasterConfig.DomainName FasterConfig.Memory FasterConfig.Strings
open FasterConfig.DnsServer FasterConfig.DnsEcho FasterConfig.DnsResponse FasterConfig.DnsRequest
open FasterConfig.DotStr FasterConfig.Separators FasterConfig.DnsRoundTrip

def npos : ℕ := 2^64-1

def find (domain : Text) (start : ℕ) : ℕ :=
  if 0x2e ∈ domain.drop start then start+(domain.drop start).idxOf 0x2e else npos

/-- What an `int` of 32 bits gets from a `size_t`. -/
def toInt (n : ℕ) : ℤ := (n : ℤ).bmod (2^32)

def toSize (i : ℤ) : ℕ := (i%2^64).toNat

def toChar (i : ℤ) : UInt8 := UInt8.ofNat (i%256).toNat

section
variable {S : Type} (put : S → UInt8 → S) (domain : Text)

/-- `for (int i = start; ..; i++)` over `n` characters. -/
def copyLoop : ℕ → ℤ → S → S
  | 0, _, s => s
  | n+1, i, s => copyLoop n (i+1) (put s (domain.getD (toSize i) 0))

/-- The loop over the dots, and the last label. `put` is `*buffer++ = c` with what is counted. -/
def labelLoop : ℕ → ℤ → S → Option S
  | 0, _, _ => none
  | fuel+1, start, s =>
    let stop := toInt (find domain (toSize start))
    if toSize stop ≠ npos then
      labelLoop fuel (stop+1)
        (copyLoop put domain (stop-start).toNat start (put s (toChar (stop-start))))
    else
      let last := domain.length-start
      some (put (copyLoop put domain last.toNat start (put s (toChar last))) 0)

end

def putCounted (s : Cursor × ℤ) (c : UInt8) : Cursor × ℤ := (s.1.put [c], s.2+1)

def encodeDomainLoop (buffer : Cursor) (name : Text) : Option (Cursor × ℤ) :=
  let domain := cString name
  labelLoop putCounted domain (domain.length+1) 0 (buffer, 0)

def codeDomainLoop (buffer : Cursor) (domain : Text) : Option Cursor :=
  labelLoop (fun c x => c.put [x]) domain (domain.length+1) 0 buffer

/-! ## Machine integers -/

theorem toInt_small (n : ℕ) (h : n < 2^31) : toInt n = n := by
  have hn : n < 2147483648 := h
  exact Int.bmod_eq_of_le (by omega) (by omega)

theorem toSize_small (n : ℕ) (h : n < 2^31) : toSize n = n := by
  rw [toSize]
  omega

theorem toSize_npos : toSize (toInt npos) = npos := by decide +kernel

theorem toChar_length (n : ℕ) : toChar n = UInt8.ofNat n := by
  rw [toChar, ← UInt8.toNat_inj, UInt8.toNat_ofNat', UInt8.toNat_ofNat']
  omega

theorem find_dot (domain : Text) (start : ℕ) (l rest : Text) (h : domain.drop start = l ++ 0x2e::rest)
    (hl : 0x2e ∉ l) : find domain start = start+l.length := by
  rw [find, h, if_pos (by simp), List.idxOf_append_of_notMem hl, List.idxOf_cons_self, Nat.add_zero]

theorem find_none (domain : Text) (start : ℕ) (h : 0x2e ∉ domain.drop start) :
    find domain start = npos := if_neg h

/-! ## What is written -/

section
variable {S : Type} (put : S → UInt8 → S) (domain : Text) (hd : domain.length < 2^31)
include hd

theorem copyLoop_eq (n i : ℕ) (s : S) (h : i+n ≤ domain.length) :
    copyLoop put domain n i s = ((domain.drop i).take n).foldl put s := by
  induction n generalizing i s with
  | zero => simp [copyLoop]
  | succ n ih =>
    have hi : i < domain.length := by omega
    have hnext : (i : ℤ)+1 = ((i+1 : ℕ) : ℤ) := by omega
    rw [copyLoop, toSize_small i (by omega), List.getD_eq_getElem _ _ hi, hnext, ih _ _ (by omega),
      List.drop_eq_getElem_cons hi, List.take_succ_cons, List.foldl_cons]

theorem labelLoop_eq (fuel start : ℕ) (s : S) (hs : start ≤ domain.length)
    (hf : domain.length-start < fuel) :
    labelLoop put domain fuel start s = some ((encodeDomain (domain.drop start)).foldl put s) := by
  induction fuel generalizing start s with
  | zero => omega
  | succ fuel ih =>
    rw [labelLoop, toSize_small start (by omega)]
    by_cases hdot : 0x2e ∈ domain.drop start
    · obtain ⟨l, rest, he, hl⟩ := List.eq_append_cons_of_mem hdot
      have hlen := congrArg List.length he
      rw [List.length_drop, List.length_append, List.length_cons] at hlen
      have hstop : toInt (find domain start) = ((start+l.length : ℕ) : ℤ) := by
        rw [find_dot domain start l rest he hl, toInt_small _ (by omega)]
      have hdiff : ((start+l.length : ℕ) : ℤ)-start = (l.length : ℕ) := by omega
      have hnext : ((start+l.length : ℕ) : ℤ)+1 = ((start+(l.length+1) : ℕ) : ℤ) := by omega
      have hne : start+l.length ≠ npos := by
        rw [npos]
        omega
      have hrest : domain.drop (start+(l.length+1)) = rest := by
        rw [← List.drop_drop, he, List.append_cons, List.drop_left' (by simp)]
      simp only [hstop, toSize_small (start+l.length) (by omega), ne_eq, hne, not_false_eq_true,
        if_true, hdiff, hnext, Int.toNat_natCast, toChar_length]
      rw [ih _ _ (by omega) (by omega), hrest, copyLoop_eq put domain hd _ _ _ (by omega), he,
        List.take_left, encodeDomain_dot l rest hl, List.foldl_append, List.foldl_cons]
    · have hlast : (domain.length : ℤ)-start = ((domain.length-start : ℕ) : ℤ) := by omega
      simp only [find_none domain start hdot, toSize_npos, ne_eq, not_true_eq_false, if_false, hlast,
        Int.toNat_natCast, toChar_length]
      rw [copyLoop_eq put domain hd _ _ _ (by omega), encodeDomain_last _ hdot, List.foldl_append,
        List.foldl_cons, List.take_of_length_le (by simp), List.length_drop, List.foldl_cons,
        List.foldl_nil]

end

theorem foldl_put (c : Cursor) (w : List UInt8) : w.foldl (fun c x => c.put [x]) c = c.put w := by
  induction w generalizing c with
  | nil => rfl
  | cons x w ih => rw [List.foldl_cons, ih, Cursor.put_put, List.singleton_append]

theorem foldl_putCounted (c : Cursor) (n : ℤ) (w : List UInt8) :
    w.foldl putCounted (c, n) = (c.put w, n+w.length) := by
  induction w generalizing c n with
  | nil => simp [Cursor.put, store]
  | cons x w ih =>
    rw [List.foldl_cons, putCounted, ih, Cursor.put_put, List.singleton_append, List.length_cons]
    congr 1
    omega

theorem encodeDomainLoop_eq (buffer : Cursor) (name : Text) (h0 : 0 ∉ name)
    (h : name.length < 2^31) :
    encodeDomainLoop buffer name = some (buffer.put (encodeDomain name), (name.length : ℤ)+2) := by
  have hloop := labelLoop_eq putCounted name h (name.length+1) 0 (buffer, 0) (Nat.zero_le _) (by omega)
  rw [Nat.cast_zero, List.drop_zero, foldl_putCounted, length_encodeDomain] at hloop
  rw [encodeDomainLoop, cString_self name h0, hloop]
  simp

theorem codeDomainLoop_eq (buffer : Cursor) (domain : Text) (h : domain.length < 2^31) :
    codeDomainLoop buffer domain = some (buffer.put (encodeDomain domain)) := by
  have hloop := labelLoop_eq (fun c x => c.put [x]) domain h (domain.length+1) 0 buffer
    (Nat.zero_le _) (by omega)
  rwa [Nat.cast_zero, List.drop_zero, foldl_put] at hloop

theorem codeDomain_eq (c : Cursor) (domain : Text) :
    codeDomain c domain = c.put (encodeDomain domain) := by
  induction hn : domain.length using Nat.strong_induction_on generalizing c domain with
  | h n ih =>
    by_cases hdot : 0x2e ∈ domain
    · obtain ⟨l, rest, rfl, hl⟩ := List.eq_append_cons_of_mem hdot
      rw [List.length_append, List.length_cons] at hn
      rw [codeDomain_label c l rest hl, ih _ (by omega) _ rest rfl, Cursor.put_put,
        encodeDomain_dot l rest hl]
    · rw [codeDomain, strchr_none _ _ hdot, encodeDomain_last domain hdot]
      simp only [Cursor.put_put, List.singleton_append]

theorem code_refines (buffer : Cursor) (domain : Text) (h : domain.length < 2^31) :
    codeDomainLoop buffer domain = some (codeDomain buffer domain) := by
  rw [codeDomain_eq, codeDomainLoop_eq buffer domain h]

/-! ## Names of labels joined by dots -/

theorem zero_not_mem_joined (ls : List Label) (h : ∀ l ∈ ls, 0 ∉ l) : 0 ∉ joined ls := by
  induction ls with
  | nil => exact List.not_mem_nil
  | cons l ls ih =>
    have hl := h l (by simp)
    cases ls with
    | nil => rwa [joined]
    | cons m ms =>
      have hrest := ih fun k hk => h k (List.mem_cons_of_mem l hk)
      simp [joined_cons, hl, hrest]

/-- Labels of 1 to 63 characters, which are neither dots nor NUL, joined by dots. -/
structure Domain where
  labels : List Label
  nonempty : labels ≠ []
  valid : ∀ l ∈ labels, ValidLabel l
  dotless : ∀ l ∈ labels, 0x2e ∉ l
  nulless : ∀ l ∈ labels, 0 ∉ l
  short : (joined labels).length < 65534

theorem encoders_agree :
    (∀ (m : Domain) (buffer : Cursor) (szEncodedStr : Text) (nEncodedStrSize : ℕ),
      (joined m.labels).length+2 ≤ nEncodedStrSize →
        (∃ len, encodeDomainLoop buffer (joined m.labels) = some (buffer.put (wire m.labels), len)) ∧
        codeDomainLoop buffer (joined m.labels) = some (buffer.put (wire m.labels)) ∧
        encodeDotStr (joined m.labels) szEncodedStr nEncodedStrSize =
          .encoded (memcpy szEncodedStr 0 (wire m.labels))) ∧
      ∀ name : Text, 0 ∉ name → name.length < 2^31-2 → ∃ octets : List UInt8,
        octets.length = name.length+2 ∧ ∀ buffer,
          encodeDomainLoop buffer name = some (buffer.put octets, (name.length : ℤ)+2) ∧
          codeDomainLoop buffer name = some (buffer.put octets) := by
  constructor
  · intro m buffer szEncodedStr nEncodedStrSize hsize
    have hshort := m.short
    have htok : strtok 0x2e (joined m.labels) = m.labels := strtok_joined m.labels fun l hl =>
      ⟨List.length_pos_iff.mp (m.valid l hl).pos, m.dotless l hl⟩
    have hwritten := encodeDotStr_written (joined m.labels) szEncodedStr hshort
      (by rw [htok]; exact m.nonempty) nEncodedStrSize hsize
    rw [htok] at hwritten
    rw [encodeDomainLoop_eq _ _ (zero_not_mem_joined m.labels m.nulless) (by omega),
      codeDomainLoop_eq _ _ (by omega), encodeDomain_joined m.labels m.nonempty m.dotless]
    exact ⟨⟨_, rfl⟩, rfl, hwritten⟩
  · intro name h0 h
    exact ⟨encodeDomain name, length_encodeDomain name, fun buffer =>
      ⟨encodeDomainLoop_eq buffer name h0 (by omega), codeDomainLoop_eq buffer name (by omega)⟩⟩

def shortDomain : Domain where
  labels := [[0x61], [0x62, 0x63]]
  nonempty := by simp
  valid := by
    intro l hl
    rcases List.mem_pair.mp hl with rfl | rfl
    · exact ⟨by simp, by simp⟩
    · exact ⟨by simp, by simp⟩
  dotless := by simp
  nulless := by simp
  short := by simp [joined]

theorem shortDomain_agrees :
    codeDomainLoop ⟨fun _ => 0, 0⟩ [0x61, 0x2e, 0x62, 0x63] =
        some (Cursor.put ⟨fun _ => 0, 0⟩ [0x01, 0x61, 0x02, 0x62, 0x63, 0x00]) ∧
      encodeDotStr [0x61, 0x2e, 0x62, 0x63] [] 6 =
        .encoded [0x01, 0x61, 0x02, 0x62, 0x63, 0x00] := by
  have h := encoders_agree.1 shortDomain ⟨fun _ => 0, 0⟩ [] 6 (Nat.le_refl 6)
  exact ⟨h.2.1, h.2.2⟩

end FasterConfig.DnsEncoders
