import FasterConfig.DomainName

/-!
# Name expansion of the resolver library

The C library reads a possibly compressed name of a message into text. It
stops at the end of the message, at a reserved label type, at more than 255
octets, and when the pointers it has followed account for the whole message.
-/

set_option autoImplicit false

namespace FasterConfig.Resolv
open FasterConfig.DomainName

def nsMaxdname : ℕ := 1025
def nsMaxcdname : ℕ := 255

/-- The labels of the name at `srcp` and the position behind its part in place,
which ends at its first pointer. `checked` counts the octets looked at and `dst`
the octets of the labels so far. -/
def nsNameUnpack (msg : List UInt8) (srcp checked dst : ℕ) : Option (List Label × ℕ) :=
  match msg[srcp]? with
  | none => none
  | some n =>
    if n = 0 then some ([], srcp+1)
    else if n.toNat < 64 then
      if dst+n.toNat+1 ≥ nsMaxcdname ∨ srcp+1+n.toNat ≥ msg.length then none
      else (nsNameUnpack msg (srcp+1+n.toNat) (checked+n.toNat+1) (dst+n.toNat+1)).map
        (fun r => ((msg.drop (srcp+1)).take n.toNat::r.1, r.2))
    else if n.toNat < 192 then none
    else
      match msg[srcp+1]? with
      | none => none
      | some m =>
        if (n.toNat-192)*256+m.toNat ≥ msg.length ∨ checked+2 ≥ msg.length then none
        else (nsNameUnpack msg ((n.toNat-192)*256+m.toNat) (checked+2) dst).map
          (fun r => (r.1, srcp+2))
termination_by (nsMaxcdname-dst)+(msg.length-checked)
decreasing_by all_goals simp only [nsMaxcdname] at *; omega

/-- Octets consumed at `compDn` and the text, if it fits with its NUL into
`length` characters. -/
def dnExpand (msg : List UInt8) (compDn length : ℕ) : Option (ℕ × List UInt8) :=
  match nsNameUnpack msg compDn 0 0 with
  | none => none
  | some (ls, e) => if (text ls).length < length then some (e-compDn, text ls) else none

theorem unpack_spec (msg : List UInt8) (srcp checked dst : ℕ) (ls : List Label) (e : ℕ)
    (h : nsNameUnpack msg srcp checked dst = some (ls, e)) (hd : dst < nsMaxcdname) :
    (∀ l ∈ ls, ValidLabel l) ∧ dst+(wireLabels ls).length < nsMaxcdname ∧
      srcp < e ∧ e ≤ msg.length ∧ e+dst ≤ srcp+nsMaxcdname+1 := by
  fun_induction nsNameUnpack msg srcp checked dst generalizing ls e with
  | case1 => simp at h
  | case2 srcp checked dst hn =>
    obtain ⟨rfl, rfl⟩ := Prod.mk.inj (Option.some.inj h)
    have hs := (List.getElem?_eq_some_iff.mp hn).1
    exact ⟨by simp, by simpa using hd, by omega, by omega, by omega⟩
  | case3 => simp at h
  | case4 srcp checked dst n hn h0 h64 hlim ih =>
    obtain ⟨⟨ks, f⟩, hr, he⟩ := Option.map_eq_some_iff.mp h
    obtain ⟨rfl, rfl⟩ := Prod.mk.inj he
    obtain ⟨hl, ht, hp, hm, hb⟩ := ih ks f hr (by simp only [nsMaxcdname] at *; omega)
    have hpos : n.toNat ≠ 0 := fun hz => h0 (UInt8.toNat_inj.mp hz)
    have hlen : ((msg.drop (srcp+1)).take n.toNat).length = n.toNat := by
      rw [List.length_take, List.length_drop]
      omega
    refine ⟨?_, ?_, by omega, hm, by omega⟩
    · intro l hm
      rcases List.mem_cons.mp hm with rfl | hm
      · exact ⟨by omega, by omega⟩
      · exact hl l hm
    · simp only [wireLabels_cons, List.length_append, List.length_cons, hlen]
      omega
  | case5 => simp at h
  | case6 => simp at h
  | case7 => simp at h
  | case8 srcp checked dst n hn h0 h64 h192 m hm hlim ih =>
    obtain ⟨⟨ks, f⟩, hr, he⟩ := Option.map_eq_some_iff.mp h
    obtain ⟨rfl, rfl⟩ := Prod.mk.inj he
    obtain ⟨hl, ht, -, -, -⟩ := ih ks f hr hd
    have hs := (List.getElem?_eq_some_iff.mp hm).1
    exact ⟨hl, ht, by omega, by omega, by omega⟩

theorem unpack_wire (ls : List Label) (pre post : List UInt8) (checked dst : ℕ)
    (hv : ∀ l ∈ ls, ValidLabel l) (hd : dst+(wireLabels ls).length < nsMaxcdname) :
    nsNameUnpack (pre ++ (wire ls ++ post)) pre.length checked dst =
      some (ls, pre.length+(wire ls).length) := by
  induction ls generalizing pre checked dst with
  | nil =>
    rw [nsNameUnpack]
    simp [wire]
  | cons l ls ih =>
    have hl := hv l (by simp)
    have h1 := hl.pos
    have h2 := hl.le
    have hn : (UInt8.ofNat l.length).toNat = l.length := by
      rw [UInt8.toNat_ofNat']
      omega
    simp only [wireLabels_cons, List.length_append, List.length_cons] at hd
    have hmsg : pre ++ (wire (l::ls) ++ post) =
        (pre ++ UInt8.ofNat l.length::l) ++ (wire ls ++ post) := by simp [wire]
    have hlen : (pre ++ UInt8.ofNat l.length::l).length = pre.length+1+l.length := by
      simp only [List.length_append, List.length_cons]
      omega
    have hget : (pre ++ (wire (l::ls) ++ post))[pre.length]? = some (UInt8.ofNat l.length) := by
      simp [wire]
    have hlast : (wire ls).length = (wireLabels ls).length+1 := length_wire ls
    rw [nsNameUnpack, hget]
    have h0 : UInt8.ofNat l.length ≠ 0 := fun hz => by
      have h3 : l.length = 0 := by rw [← hn, hz]; rfl
      omega
    have hlim : ¬ (dst+l.length+1 ≥ nsMaxcdname ∨
        pre.length+1+l.length ≥ (pre ++ (wire (l::ls) ++ post)).length) := by
      rw [hmsg, List.length_append, hlen, List.length_append]
      omega
    simp only [h0, if_false, hn, show l.length < 64 by omega, if_true, hlim]
    rw [hmsg, ← hlen, ih _ _ _ (fun k hk => hv k (by simp [hk])) (by omega)]
    simp [wire]
    omega

theorem dnExpand_spec (msg : List UInt8) (compDn length k : ℕ) (t : List UInt8)
    (h : dnExpand msg compDn length = some (k, t)) :
    1 ≤ k ∧ k ≤ nsMaxcdname+1 ∧ compDn+k ≤ msg.length ∧ ∃ ls, ValidName ls ∧ t = text ls := by
  unfold dnExpand at h
  split at h
  · simp at h
  · rename_i ls e he
    split_ifs at h with hl
    obtain ⟨rfl, rfl⟩ := Prod.mk.inj (Option.some.inj h)
    obtain ⟨hv, ht, hs, hm, hb⟩ := unpack_spec msg compDn 0 0 ls e he (by decide)
    refine ⟨by omega, by omega, by omega, ls, ⟨hv, ?_⟩, rfl⟩
    rw [length_wire]
    simp only [nsMaxcdname] at ht
    omega

theorem dnExpand_eq (msg : List UInt8) (compDn : ℕ) :
    dnExpand msg compDn nsMaxdname =
      (nsNameUnpack msg compDn 0 0).map (fun r => (r.2-compDn, text r.1)) := by
  unfold dnExpand
  cases h : nsNameUnpack msg compDn 0 0 with
  | none => rfl
  | some r =>
    obtain ⟨hv, ht, -, -, -⟩ := unpack_spec msg compDn 0 0 r.1 r.2 h (by decide)
    have hw : (wire r.1).length ≤ 255 := by
      rw [length_wire]
      simp only [nsMaxcdname] at ht
      omega
    have hl := length_text_le r.1 hw
    simp only [Option.map_some, nsMaxdname, show (text r.1).length < 1025 by omega, if_true]

theorem dnExpand_wire (ls : List Label) (pre post : List UInt8) (hv : ValidName ls) :
    dnExpand (pre ++ (wire ls ++ post)) pre.length nsMaxdname =
      some ((wire ls).length, text ls) := by
  have ht := hv.total
  rw [length_wire] at ht
  rw [dnExpand_eq, unpack_wire ls pre post 0 0 hv.labels (by simp only [nsMaxcdname]; omega)]
  simp

end FasterConfig.Resolv
